import Mathlib.Tactic.Tauto
import ReactiveSheet.Proofs.Graph.Cycle
import ReactiveSheet.Sheet.Edit

/-!
The links of a sheet agree with its formulas, and what the searches along them find.

`rewire` is what an edit does before it stores a value: it gives a cell a formula, or takes its
formula away, with the links that go with it. `Linked` says that links agree: the parents of a cell
are the cells that its formula reads, the children are the same links seen from the other end, and
all of them lie inside. It outlasts an edit: `Linked.rewire`.

In a sheet whose links agree, `downstream` finds the cells that depend on a cell, and `cycleFrom?`
finds something for the cells that are behind a cycle.
-/

namespace ReactiveSheet

open Relation (TransGen)
open ReactiveSheet.Graph (Link)

namespace Sheet

variable {e : Extent}

/-- The same formulas and links, whatever the values. -/
structure SameForm (s t : Sheet e) : Prop where
  formula : t.formula? = s.formula?
  parents : t.parents = s.parents
  children : t.children = s.children

theorem SameForm.refl (s : Sheet e) : SameForm s s := ⟨rfl, rfl, rfl⟩

theorem SameForm.trans {s t u : Sheet e} (h : SameForm s t) (k : SameForm t u) : SameForm s u :=
  ⟨k.formula.trans h.formula, k.parents.trans h.parents, k.children.trans h.children⟩

def readBy (f : Option Formula) : List Address := (f.map Formula.references).getD []

structure Linked (s : Sheet e) : Prop where
  parents_eq : ∀ a, s.parents a = readBy (s.formula? a)
  mem_children : ∀ p c, c ∈ s.children p ↔ p ∈ s.parents c
  ascending : ∀ p, (s.children p).Pairwise (· < ·)
  inside : ∀ c, ∀ p ∈ s.parents c, p ∈ e

theorem Linked.of_sameForm {s t : Sheet e} (hs : Linked s) (h : SameForm s t) : Linked t where
  parents_eq a := by rw [h.parents, h.formula, hs.parents_eq]
  mem_children p c := by rw [h.children, h.parents, hs.mem_children]
  ascending p := by rw [h.children]; exact hs.ascending p
  inside c p hp := hs.inside c p (h.parents ▸ hp)

theorem Linked.nodup_children {s : Sheet e} (hs : Linked s) (p : Address) :
    (s.children p).Nodup := Address.nodup_of_ascending (hs.ascending p)

theorem ascending_readBy (f : Option Formula) : (readBy f).Pairwise (· < ·) := by
  cases f with
  | none => exact List.Pairwise.nil
  | some f => exact Address.pairwise_setOf f.mentions

theorem Linked.ascending_parents {s : Sheet e} (hs : Linked s) (c : Address) :
    (s.parents c).Pairwise (· < ·) := by
  rw [hs.parents_eq]
  exact ascending_readBy _

theorem Linked.nodup_parents {s : Sheet e} (hs : Linked s) (c : Address) :
    (s.parents c).Nodup := Address.nodup_of_ascending (hs.ascending_parents c)

theorem Linked.formula_of_parent {s : Sheet e} (hs : Linked s) {c p : Address}
    (h : p ∈ s.parents c) : ∃ f, s.formula? c = some f ∧ p ∈ f.references := by
  rw [hs.parents_eq] at h
  cases hf : s.formula? c with
  | none => simp [readBy, hf] at h
  | some f => exact ⟨f, rfl, by simpa [readBy, hf] using h⟩

theorem linked_blank : Linked (blank e) where
  parents_eq a := by simp [readBy]
  mem_children p c := by simp
  ascending p := by simp
  inside c p hp := by simp at hp

theorem value?_modify_of_same {s : Sheet e} {p : Address} {f : Cell → Cell}
    (same : ∀ c, (f c).value = c.value) : (s.modify p f).value? = s.value? := by
  funext b
  rw [value?_modify, funext same]
  exact ite_self _

theorem formula?_modify_of_same {s : Sheet e} {p : Address} {f : Cell → Cell}
    (same : ∀ c, (f c).formula = c.formula) : (s.modify p f).formula? = s.formula? := by
  funext b
  rw [formula?_modify, funext same]
  exact ite_self _

theorem parents_modify_parents (s : Sheet e) (a b : Address) (g : List Address → List Address) :
    (s.modify a fun c => { c with parents := g c.parents }).parents b =
      if b = a ∧ b ∈ e then g (s.parents b) else s.parents b := by
  rw [parents_modify, parents_eq]
  by_cases hb : b ∈ e
  · simp [cell?_of_mem hb, hb]
  · simp [cell?_of_not_mem hb, hb]

theorem children_modify_children (s : Sheet e) (p b : Address) (g : List Address → List Address) :
    (s.modify p fun c => { c with children := g c.children }).children b =
      if b = p ∧ b ∈ e then g (s.children b) else s.children b := by
  rw [children_modify, children_eq]
  by_cases hb : b ∈ e
  · simp [cell?_of_mem hb, hb]
  · simp [cell?_of_not_mem hb, hb]

variable (change : Address → List Address → List Address) (s : Sheet e) (a p b : Address)

theorem value?_atBothEnds : (s.atBothEnds change a p).value? = s.value? := by
  rw [atBothEnds, value?_modify_of_same, value?_modify_of_same]
  · exact fun _ => rfl
  · exact fun _ => rfl

theorem formula?_atBothEnds : (s.atBothEnds change a p).formula? = s.formula? := by
  rw [atBothEnds, formula?_modify_of_same, formula?_modify_of_same]
  · exact fun _ => rfl
  · exact fun _ => rfl

theorem parents_atBothEnds : (s.atBothEnds change a p).parents b =
    if b = a ∧ b ∈ e then change p (s.parents b) else s.parents b := by
  have same : (s.modify p fun c => { c with children := change a c.children }).parents b =
      s.parents b := by
    rw [parents_modify, parents_eq]
    exact ite_self _
  rw [atBothEnds, parents_modify_parents, same]

theorem children_atBothEnds : (s.atBothEnds change a p).children b =
    if b = p ∧ b ∈ e then change a (s.children b) else s.children b := by
  rw [atBothEnds, children_modify, ← children_modify_children, children_eq]
  exact ite_self _

variable {change s a p b}

structure Ascending (s : Sheet e) : Prop where
  parents : ∀ b, (s.parents b).Pairwise (· < ·)
  children : ∀ b, (s.children b).Pairwise (· < ·)

theorem Ascending.atBothEnds (h : Ascending s) (keeps : ∀ {x : Address} {set : List Address},
    set.Pairwise (· < ·) → (change x set).Pairwise (· < ·)) :
    Ascending (s.atBothEnds change a p) where
  parents b := by
    rw [parents_atBothEnds]
    split
    · exact keeps (h.parents b)
    · exact h.parents b
  children b := by
    rw [children_atBothEnds]
    split
    · exact keeps (h.children b)
    · exact h.children b

theorem mem_erase_of_ascending {set : List Address} (h : set.Pairwise (· < ·)) {x y : Address} :
    x ∈ set.erase y ↔ x ∈ set ∧ x ≠ y := by
  rw [(Address.nodup_of_ascending h).mem_erase_iff]
  exact and_comm

theorem unlink_spec (h : Ascending s) (a p : Address) : Ascending (s.unlink a p) ∧
    (∀ b x, x ∈ (s.unlink a p).parents b ↔ x ∈ s.parents b ∧ ¬ (b = a ∧ x = p)) ∧
      ∀ b x, x ∈ (s.unlink a p).children b ↔ x ∈ s.children b ∧ ¬ (x = a ∧ b = p) := by
  refine ⟨h.atBothEnds fun k => k.sublist List.erase_sublist, fun b x => ?_, fun b x => ?_⟩
  · rw [unlink, parents_atBothEnds]
    by_cases hb : b ∈ e
    · split
      · rw [mem_erase_of_ascending (h.parents b)]
        tauto
      · tauto
    · simp [parents_of_not_mem hb]
  · rw [unlink, children_atBothEnds]
    by_cases hb : b ∈ e
    · split
      · rw [mem_erase_of_ascending (h.children b)]
        tauto
      · tauto
    · simp [children_of_not_mem hb]

theorem link_spec (h : Ascending s) {a p : Address} (ha : a ∈ e) (hp : p ∈ e) :
    Ascending (s.link a p) ∧
    (∀ b x, x ∈ (s.link a p).parents b ↔ x ∈ s.parents b ∨ (b = a ∧ x = p)) ∧
      ∀ b x, x ∈ (s.link a p).children b ↔ x ∈ s.children b ∨ (x = a ∧ b = p) := by
  refine ⟨h.atBothEnds Address.pairwise_insert, fun b x => ?_, fun b x => ?_⟩
  · rw [link, parents_atBothEnds]
    by_cases hb : b = a
    · simp [hb, ha, or_comm]
    · simp [hb]
  · rw [link, children_atBothEnds]
    by_cases hb : b = p
    · simp [hb, hp, or_comm]
    · simp [hb]

theorem unlinkAll_spec (ps : List Address) (h : Ascending s) (a : Address) :
    let t := ps.foldl (fun s p => s.unlink a p) s
    (t.value? = s.value? ∧ t.formula? = s.formula?) ∧ Ascending t ∧
      (∀ b x, x ∈ t.parents b ↔ x ∈ s.parents b ∧ ¬ (b = a ∧ x ∈ ps)) ∧
        ∀ b x, x ∈ t.children b ↔ x ∈ s.children b ∧ ¬ (x = a ∧ b ∈ ps) := by
  induction ps generalizing s with
  | nil => exact ⟨⟨rfl, rfl⟩, h, by simp, by simp⟩
  | cons p ps ih =>
    obtain ⟨order, parents, children⟩ := unlink_spec h a p
    obtain ⟨⟨value, formula⟩, order', parents', children'⟩ := ih order
    refine ⟨⟨value.trans (value?_atBothEnds _ s a p), formula.trans (formula?_atBothEnds _ s a p)⟩,
      order', fun b x => (parents' b x).trans ?_, fun b x => (children' b x).trans ?_⟩
    · rw [parents, List.mem_cons]
      tauto
    · rw [children, List.mem_cons]
      tauto

theorem linkAll_spec (ps : List Address) (h : Ascending s) {a : Address} (ha : a ∈ e)
    (inside : ∀ p ∈ ps, p ∈ e) :
    let t := ps.foldl (fun s p => s.link a p) s
    (t.value? = s.value? ∧ t.formula? = s.formula?) ∧ Ascending t ∧
      (∀ b x, x ∈ t.parents b ↔ x ∈ s.parents b ∨ (b = a ∧ x ∈ ps)) ∧
        ∀ b x, x ∈ t.children b ↔ x ∈ s.children b ∨ (x = a ∧ b ∈ ps) := by
  induction ps generalizing s with
  | nil => exact ⟨⟨rfl, rfl⟩, h, by simp, by simp⟩
  | cons p ps ih =>
    obtain ⟨here, others⟩ := List.forall_mem_cons.mp inside
    obtain ⟨order, parents, children⟩ := link_spec h ha here
    obtain ⟨⟨value, formula⟩, order', parents', children'⟩ := ih order others
    refine ⟨⟨value.trans (value?_atBothEnds _ s a p), formula.trans (formula?_atBothEnds _ s a p)⟩,
      order', fun b x => (parents' b x).trans ?_, fun b x => (children' b x).trans ?_⟩
    · rw [parents, List.mem_cons]
      tauto
    · rw [children, List.mem_cons]
      tauto

/-- Taking the links that are gone and then adding the new ones leaves exactly the parents that are
wanted, and each parent knows. -/
theorem relink_spec {s : Sheet e} (hs : Linked s) {a : Address} (ha : a ∈ e) {ps : List Address}
    (set : ps.Pairwise (· < ·)) (inside : ∀ p ∈ ps, p ∈ e) :
    let t := s.relink a ps
    t.value? = s.value? ∧ t.formula? = s.formula? ∧
      (∀ b, t.parents b = if b = a then ps else s.parents b) ∧
      (∀ b, (t.children b).Pairwise (· < ·)) ∧
      ∀ b x, x ∈ t.children b ↔ if x = a then b ∈ ps else x ∈ s.children b := by
  intro t
  have ascending : Ascending s := ⟨hs.ascending_parents, hs.ascending⟩
  have split : t = (ps.filter (· ∉ s.parents a)).foldl (fun s p => s.link a p)
      (((s.parents a).filter (· ∉ ps)).foldl (fun s p => s.unlink a p) s) := if_pos ha
  obtain ⟨⟨value, formula⟩, order, parents, children⟩ :=
    unlinkAll_spec ((s.parents a).filter (· ∉ ps)) ascending a
  obtain ⟨⟨value', formula'⟩, order', parents', children'⟩ :=
    linkAll_spec (ps.filter (· ∉ s.parents a)) order ha
      fun p hp => inside p (List.mem_filter.mp hp).1
  rw [split]
  refine ⟨value'.trans value, formula'.trans formula, fun b => ?_, order'.children, fun b x => ?_⟩
  · have wanted : (if b = a then ps else s.parents b).Pairwise (· < ·) := by
      split
      · exact set
      · exact ascending.parents b
    refine Address.eq_of_mem_iff (order'.parents b) wanted fun x => (parents' b x).trans ?_
    rw [parents]
    by_cases hb : b = a
    · subst hb
      simp only [true_and, List.mem_filter, decide_eq_true_eq, if_true]
      tauto
    · simp [hb]
  · refine (children' b x).trans ?_
    rw [children]
    by_cases hx : x = a
    · subst hx
      have old := hs.mem_children b x
      simp only [true_and, List.mem_filter, decide_eq_true_eq, if_true, old]
      tauto
    · simp [hx]

/-- Gives the cell at `a` a formula or takes its formula away, with the links of it. -/
def rewire (s : Sheet e) (a : Address) (f : Option Formula) : Sheet e :=
  (s.relink a (readBy f)).modify a fun c => { c with formula := f }

variable {s : Sheet e} {a : Address} {f : Option Formula}

theorem value?_rewire (hs : Linked s) (ha : a ∈ e) (inside : ∀ p ∈ readBy f, p ∈ e) :
    (s.rewire a f).value? = s.value? := by
  funext b
  rw [rewire, value?_modify, ← (relink_spec hs ha (ascending_readBy f) inside).1]
  exact ite_self _

theorem formula?_rewire (hs : Linked s) (ha : a ∈ e) (inside : ∀ p ∈ readBy f, p ∈ e)
    (b : Address) : (s.rewire a f).formula? b = if b = a then f else s.formula? b := by
  rw [rewire, formula?_modify, ← (relink_spec hs ha (ascending_readBy f) inside).2.1]
  split
  · rename_i hb
    rw [cell?_of_mem (hb ▸ ha)]
    rfl
  · rfl

theorem parents_rewire (hs : Linked s) (ha : a ∈ e) (inside : ∀ p ∈ readBy f, p ∈ e)
    (b : Address) : (s.rewire a f).parents b = if b = a then readBy f else s.parents b := by
  rw [rewire, parents_modify, ← (relink_spec hs ha (ascending_readBy f) inside).2.2.1, parents_eq]
  exact ite_self _

theorem children_rewire (s : Sheet e) (a : Address) (f : Option Formula) (b : Address) :
    (s.rewire a f).children b = (s.relink a (readBy f)).children b := by
  rw [rewire, children_modify, children_eq]
  exact ite_self _

theorem Linked.rewire (hs : Linked s) (ha : a ∈ e) (inside : ∀ p ∈ readBy f, p ∈ e) :
    Linked (s.rewire a f) := by
  obtain ⟨-, -, -, order, mem⟩ := relink_spec hs ha (ascending_readBy f) inside
  constructor
  · intro b
    rw [parents_rewire hs ha inside, formula?_rewire hs ha inside]
    split
    · rfl
    · exact hs.parents_eq b
  · intro p c
    rw [children_rewire, mem, parents_rewire hs ha inside]
    split
    · rfl
    · exact hs.mem_children p c
  · intro p
    rw [children_rewire]
    exact order p
  · intro c p hp
    rw [parents_rewire hs ha inside] at hp
    split at hp
    · exact inside p hp
    · exact hs.inside c p hp

end Sheet

namespace Extent

def addresses (e : Extent) : Finset Address := (Finset.range e.area).image e.place

theorem mem_addresses {e : Extent} {a : Address} : a ∈ e.addresses ↔ a ∈ e := by
  rw [addresses, Finset.mem_image]
  constructor
  · rintro ⟨i, hi, rfl⟩
    exact place_mem (Finset.mem_range.mp hi)
  · intro ha
    exact ⟨e.position a, Finset.mem_range.mpr (position_lt ha), place_position ha⟩

theorem card_addresses_le (e : Extent) : e.addresses.card ≤ e.area :=
  Finset.card_image_le.trans (Finset.card_range e.area).le

end Extent

namespace Sheet

variable {e : Extent}

/-- The formula at `c` reads `p`, or a cell that depends on `p`. -/
def DependsOn (s : Sheet e) (c p : Address) : Prop := TransGen (Link s.parents) c p

/-- A cycle can be reached from the cell by going from cells to their parents. -/
def Behind (s : Sheet e) (c : Address) : Prop := Graph.Behind s.parents c

theorem behind_iff {s : Sheet e} {c : Address} : s.Behind c ↔ ∃ p ∈ s.parents c, s.Behind p :=
  Graph.behind_iff

theorem not_behind_iff {s : Sheet e} {c : Address} :
    ¬ s.Behind c ↔ ∀ p ∈ s.parents c, ¬ s.Behind p := by
  rw [behind_iff, not_exists]
  exact forall_congr' fun p => not_and

theorem Behind.of_parent {s : Sheet e} {c p : Address} (h : s.Behind p) (link : p ∈ s.parents c) :
    s.Behind c := Graph.Behind.of_link h link

theorem Behind.of_dependsOn {s : Sheet e} {c p : Address} (h : s.Behind p) (k : s.DependsOn c p) :
    s.Behind c := Graph.Behind.of_leads h k.to_reflTransGen

theorem DependsOn.behind {s : Sheet e} {c : Address} (h : s.DependsOn c c) : s.Behind c :=
  Graph.OnCycle.behind h

theorem SameForm.behind_iff {s t : Sheet e} (h : SameForm s t) (c : Address) :
    t.Behind c ↔ s.Behind c := by
  rw [Behind, Behind, h.parents]

variable {s : Sheet e}

theorem finite_parents (s : Sheet e) : {c | s.parents c ≠ []}.Finite := by
  apply e.addresses.finite_toSet.subset
  intro c hc
  by_contra outside
  exact hc (parents_of_not_mem (mt Extent.mem_addresses.mpr outside))

theorem induction_off_cycles (s : Sheet e) {P : Address → Prop}
    (step : ∀ c, ¬ s.Behind c → (∀ p ∈ s.parents c, P p) → P c) : ∀ c, ¬ s.Behind c → P c :=
  Graph.induction_off_cycles s.finite_parents step

theorem behind_of_endless {S : Address → Prop} (endless : ∀ c, S c → ∃ p ∈ s.parents c, S p)
    {c : Address} (hc : S c) : s.Behind c :=
  Graph.behind_of_endless s.finite_parents endless hc

theorem Linked.parents_inside (hs : Linked s) : ∀ c, ∀ p ∈ s.parents c, p ∈ e.addresses :=
  fun c p link => Extent.mem_addresses.mpr (hs.inside c p link)

theorem Linked.children_inside (hs : Linked s) : ∀ p, ∀ c ∈ s.children p, c ∈ e.addresses := by
  intro p c h
  refine Extent.mem_addresses.mpr (by_contra ?_)
  intro outside
  have link := (hs.mem_children p c).mp h
  rw [parents_of_not_mem outside] at link
  exact List.not_mem_nil link

theorem isSome_cycleFrom? (hs : Linked s) (c : Address) :
    (s.cycleFrom? c).isSome ↔ s.Behind c :=
  Graph.isSome_findCycle hs.parents_inside e.card_addresses_le

theorem mem_downstream_iff (hs : Linked s) {a c : Address} :
    c ∈ s.downstream a ↔ c ≠ a ∧ TransGen (Link s.children) a c := by
  rw [downstream, List.mem_mergeSort]
  exact Graph.mem_reach hs.children_inside e.card_addresses_le

theorem mem_downstream (hs : Linked s) {a c : Address} :
    c ∈ s.downstream a ↔ c ≠ a ∧ s.DependsOn c a := by
  rw [mem_downstream_iff hs, DependsOn,
    ← Graph.transGen_reverse fun p c => (hs.mem_children p c).symm]

theorem nodup_downstream (hs : Linked s) (a : Address) : (s.downstream a).Nodup := by
  refine (List.mergeSort_perm _ _).nodup_iff.mpr ?_
  exact Graph.nodup_reach hs.children_inside e.card_addresses_le

theorem downstream_of_parent (hs : Linked s) {a p c : Address} (hp : p = a ∨ p ∈ s.downstream a)
    (link : p ∈ s.parents c) (hc : c ≠ a) : c ∈ s.downstream a := by
  refine (mem_downstream hs).mpr ⟨hc, ?_⟩
  rcases hp with rfl | hp
  · exact .single link
  · exact ((mem_downstream hs).mp hp).2.head link

end Sheet

end ReactiveSheet
