import ReactiveSheet.Proofs.Sheet.Edit

/-!
Histories of edits: their links, the searches along these, and what an edit leaves alone.

An edit that fails leaves the sheet as it is, so a history may hold any edits at all. After every
history the links agree, so both searches have room for all cells and go on to their end: the cells
downstream of a cell are those that child links lead to, and a cycle is found if there is one.

An edit gives one cell other parents, so the links that come or go all end in that cell, and which
other cells depend on it stays the same. Propagation writes to those cells only. So away from the
target nothing but the values of formula cells downstream of it can change.
-/

namespace ReactiveSheet.Sheet

open Relation (TransGen)
open ReactiveSheet.Graph (Link Advance Advances degree Returns Closes)

variable {e : Extent}

/-- The sheet after some edits, one after another. Those that fail are passed over. -/
def perform (s : Sheet e) : List (Address × Edit) → Sheet e
  | [] => s
  | (a, edit) :: rest =>
    match s.edit a edit with
    | .ok (t, _) => t.perform rest
    | .error _ => s.perform rest

theorem perform_preserves {P : Sheet e → Prop} {history : List (Address × Edit)} {s : Sheet e}
    (start : P s) (step : ∀ s t a edit r, (a, edit) ∈ history → P s → s.edit a edit = .ok (t, r) →
      P t) : P (s.perform history) := by
  induction history generalizing s with
  | nil => exact start
  | cons x rest ih =>
    obtain ⟨a, edit⟩ := x
    have later (s t : Sheet e) (b : Address) (next : Edit) (r : Report) (hb : (b, next) ∈ rest) :=
      step s t b next r (List.mem_cons_of_mem _ hb)
    unfold perform
    cases h : s.edit a edit with
    | error cause => exact ih start later
    | ok x =>
      obtain ⟨t, r⟩ := x
      exact ih (step s t a edit r List.mem_cons_self start h) later

theorem perform_append (s : Sheet e) (history later : List (Address × Edit)) :
    s.perform (history ++ later) = (s.perform history).perform later := by
  induction history generalizing s with
  | nil => rfl
  | cons x rest ih =>
    obtain ⟨a, edit⟩ := x
    rw [List.cons_append, perform, perform]
    split
    · exact ih _
    · exact ih _

theorem exists_edited {s : Sheet e} (hs : Linked s) {a : Address} (edit : Edit) (ha : a ∈ e)
    (inside : ∀ p ∈ readBy edit.formula?, p ∈ e) :
    ∃ t r, s.edit a edit = .ok (t, r) ∧ Edited s a edit t ∧
      ∀ rest, s.perform ((a, edit) :: rest) = t.perform rest := by
  obtain ⟨⟨t, r⟩, h⟩ := edit_of_inside s edit ha inside
  refine ⟨t, r, h, edited hs h, fun rest => ?_⟩
  rw [perform, h]

theorem linked_perform {s : Sheet e} (hs : Linked s) (history : List (Address × Edit)) :
    Linked (s.perform history) :=
  perform_preserves hs fun _ _ _ _ _ _ linked h => (edited linked h).linked

/-- Whatever is done to a sheet, failing edits included, parents and children are the same links
seen from both ends, the parents of a cell are the cells that its formula reads, and all links lie
inside. -/
theorem links_agree (e : Extent) (history : List (Address × Edit)) :
    let s := (blank e).perform history
    (∀ p c, p ∈ s.parents c ↔ c ∈ s.children p) ∧
      (∀ c, s.parents c = match s.formula? c with
        | some f => f.references
        | none => []) ∧
      (∀ c, ∀ p ∈ s.parents c, p ∈ e) ∧ ∀ p, ∀ c ∈ s.children p, c ∈ e := by
  intro s
  have linked : Linked s := linked_perform linked_blank history
  refine ⟨fun p c => (linked.mem_children p c).symm, ?_, linked.inside,
    fun p c hc => Extent.mem_addresses.mp (linked.children_inside p c hc)⟩
  intro c
  rw [linked.parents_eq]
  cases s.formula? c <;> rfl

theorem mem_addresses_of_children {s : Sheet e} {c : Address} (h : s.children c ≠ []) :
    c ∈ e.addresses.toList := by
  refine Finset.mem_toList.mpr (Extent.mem_addresses.mpr (by_contra ?_))
  exact fun outside => h (children_of_not_mem outside)

/-- After any history the cells downstream of a cell are the cells other than itself that one or
more child links lead to from it, each of them once, also if a cycle comes back to the cell. A
search along child links goes on as long as cells are pending, whichever of them it takes; it makes
no more steps than the sheet has links, and at its end it has found just these cells. -/
theorem downstream_is_reached (e : Extent) (history : List (Address × Edit)) (origin : Address) :
    let s := (blank e).perform history
    (∀ c, c ∈ s.downstream origin ↔ c ≠ origin ∧ TransGen (Link s.children) origin c) ∧
      (s.downstream origin).Nodup ∧
      ∀ n f, Advances s.children origin n ⟨[], s.children origin⟩ f →
        n ≤ degree s.children e.addresses.toList ∧
          ((∃ g, Advance s.children origin f g) ↔ f.pending ≠ []) ∧
          (f.pending = [] → f.found.Perm (s.downstream origin)) := by
  intro s
  have linked : Linked s := linked_perform linked_blank history
  have distinct : (s.downstream origin).Nodup := nodup_downstream linked origin
  refine ⟨fun c => mem_downstream_iff linked, distinct, fun n f steps => ⟨?_, ?_, ?_⟩⟩
  · exact steps.le_degree fun c => mem_addresses_of_children
  · exact Graph.exists_advance_iff
  · intro none
    have reaching := (Graph.reaching_start s.children origin).advances steps
    obtain ⟨found, pending⟩ := f
    obtain rfl : pending = [] := none
    refine (List.perm_ext_iff_of_nodup reaching.nodup distinct).mpr fun c => ?_
    rw [reaching.mem_found_iff, mem_downstream_iff linked]

variable {s : Sheet e} {a : Address}

theorem Linked.returns_iff (hs : Linked s) {found : Option (List Address)} :
    Returns s.parents a found ↔ found = s.cycleFrom? a :=
  Graph.returns_iff hs.parents_inside e.card_addresses_le

theorem Linked.closes_of_cycleFrom? (hs : Linked s) {path : List Address}
    (found : s.cycleFrom? a = some path) :
    ∃ earlier last, path = earlier ++ [last] ∧ Closes s.parents a earlier last :=
  Graph.closes_of_findCycle hs.parents_inside e.card_addresses_le found

/-- After any history the search for a cycle from any address comes to an end by itself. If a cycle
can be reached from there through parents, it returns a path that starts there, goes from each cell
to a parent of it and ends at a cell that is on it once before, while no other cell is on it twice;
and if there is no such cycle, it returns nothing. -/
theorem cycle_search_decides (e : Extent) (history : List (Address × Edit)) (a : Address) :
    let s := (blank e).perform history
    (∀ found, Returns s.parents a found ↔ found = s.cycleFrom? a) ∧
      match s.cycleFrom? a with
      | some path => s.Behind a ∧ ∃ earlier last, path = earlier ++ [last] ∧
          Closes s.parents a earlier last ∧ earlier.count last = 1
      | none => ¬ s.Behind a := by
  intro s
  have linked : Linked s := linked_perform linked_blank history
  refine ⟨fun found => linked.returns_iff, ?_⟩
  have decides := isSome_cycleFrom? linked a
  cases found : s.cycleFrom? a with
  | none =>
    rw [found] at decides
    exact fun behind => Bool.false_ne_true (decides.mpr behind)
  | some path =>
    rw [found] at decides
    obtain ⟨earlier, last, split, closes⟩ := linked.closes_of_cycleFrom? found
    exact ⟨decides.mp rfl, earlier, last, split, closes, closes.count_eq_one⟩

variable {t : Sheet e} {c p : Address} {edit : Edit} {r : Report}

theorem Edited.erase_children (h : Edited s a edit t) (hs : Linked s) (p : Address) :
    (t.children p).erase a = (s.children p).erase a := by
  apply Address.eq_of_mem_iff
  · exact (h.linked.ascending p).sublist List.erase_sublist
  · exact (hs.ascending p).sublist List.erase_sublist
  · intro c
    rw [(h.linked.nodup_children p).mem_erase_iff, (hs.nodup_children p).mem_erase_iff]
    refine and_congr_right fun hc => ?_
    rw [h.linked.mem_children, hs.mem_children, h.parents hs hc]

/-- Where only the parents of `a` differ, the same cells depend on `a`. -/
theorem DependsOn.of_parents_eq (same : ∀ c, c ≠ a → t.parents c = s.parents c)
    (path : t.DependsOn c a) (hc : c ≠ a) : s.DependsOn c a := by
  -- a path to `a` may pass through `a`, but what comes before that uses the parents of other cells
  have reached : c = a ∨ s.DependsOn c a := by
    clear hc
    induction path using TransGen.head_induction_on with
    | @single c link =>
      by_cases target : c = a
      · exact Or.inl target
      · exact Or.inr (.single (same c target ▸ link : a ∈ s.parents c))
    | @head c p link _ ih =>
      by_cases target : c = a
      · exact Or.inl target
      · have link : p ∈ s.parents c := same c target ▸ link
        rcases ih with rfl | rest
        · exact Or.inr (.single link)
        · exact Or.inr (.head link rest)
  exact reached.resolve_left hc

theorem Edited.dependsOn_iff (h : Edited s a edit t) (hs : Linked s) (hc : c ≠ a) :
    t.DependsOn c a ↔ s.DependsOn c a := by
  constructor
  · exact fun path => path.of_parents_eq (fun b hb => h.parents hs hb) hc
  · exact fun path => path.of_parents_eq (fun b hb => (h.parents hs hb).symm) hc

theorem Linked.dependsOn_iff (hs : Linked s) :
    s.DependsOn c a ↔ TransGen (Link s.children) a c :=
  Graph.transGen_reverse fun p c => (hs.mem_children p c).symm

theorem value?_edit (hs : Linked s) (h : s.edit a edit = .ok (t, r)) (hc : c ≠ a)
    (apart : ¬ t.DependsOn c a) : t.value? c = s.value? c := by
  obtain ⟨ha, inside, note, hnote, eq⟩ := edit_eq_follow h
  let u := s.rewire a edit.formula?
  let v := u.dueBy a edit
  have hu : Linked u := hs.rewire ha inside
  have stored : Linked (u.store a v note).1 := hu.of_sameForm (sameForm_store u a v note)
  have faithful := faithful_follow hu (a := a) (v := v) hnote
  rw [show follow a (u.store a v note) = (t, r) from eq] at faithful
  have outside : c ∉ (u.store a v note).1.downstream a := by
    intro k
    have path := ((mem_downstream stored).mp k).2
    rw [DependsOn, ← faithful.form.parents] at path
    exact apart path
  calc t.value? c
      = (u.store a v note).1.value? c := faithful.frame c outside
    _ = u.value? c := value?_store_of_ne u hc v note
    _ = s.value? c := congrFun (value?_rewire hs ha inside) c

/-- What can be told of a cell other than the target. -/
structure Framed (s : Sheet e) (a : Address) (t : Sheet e) (c : Address) : Prop where
  formula : t.formula? c = s.formula? c
  parents : t.parents c = s.parents c
  value : t.value? c = s.value? c ∨ ((s.formula? c).isSome ∧
    TransGen (Link s.children) a c ∧ TransGen (Link t.children) a c)

theorem framed (hs : Linked s) (h : s.edit a edit = .ok (t, r)) (hc : c ≠ a) : Framed s a t c := by
  have done := edited hs h
  refine ⟨(done.formula c).trans (if_neg hc), done.parents hs hc, ?_⟩
  by_cases path : t.DependsOn c a
  · have before : s.DependsOn c a := (done.dependsOn_iff hs hc).mp path
    obtain ⟨p, link, -⟩ := TransGen.head'_iff.mp before
    obtain ⟨f, hf, -⟩ := hs.formula_of_parent link
    exact Or.inr ⟨by rw [hf]; rfl, hs.dependsOn_iff.mp before, done.linked.dependsOn_iff.mp path⟩
  · exact Or.inl (value?_edit hs h hc path)

theorem perform_of_other_targets (hs : Linked s) (plain : s.formula? c = none)
    {later : List (Address × Edit)} (others : ∀ x ∈ later, x.1 ≠ c) :
    (s.perform later).formula? c = none ∧ (s.perform later).value? c = s.value? c := by
  let P (t : Sheet e) : Prop := Linked t ∧ t.formula? c = none ∧ t.value? c = s.value? c
  have step (t u : Sheet e) (b : Address) (edit : Edit) (r : Report) (mem : (b, edit) ∈ later)
      (kept : P t) (h : t.edit b edit = .ok (u, r)) : P u := by
    obtain ⟨linked, formula, value⟩ := kept
    have frame : Framed t b u c := framed linked h (others _ mem).symm
    refine ⟨(edited linked h).linked, frame.formula.trans formula, ?_⟩
    rcases frame.value with same | ⟨some, -⟩
    · exact same.trans value
    · rw [formula] at some
      exact absurd some Bool.false_ne_true
  exact (perform_preserves ⟨hs, plain, rfl⟩ step).2

/-- After any history, an edit that succeeds leaves the formulas and the parents of all other cells
alone, and the children of all cells but for its target. The value of another cell changes only if
that cell has a formula and is reached from the target through children, before the edit and after
it; and a cell without a formula is as it was after any edits of other cells. -/
theorem edit_frame (e : Extent) (history : List (Address × Edit)) {a : Address} {edit : Edit}
    {t : Sheet e} {r : Report} (h : ((blank e).perform history).edit a edit = .ok (t, r)) :
    let s := (blank e).perform history
    (∀ c, c ≠ a → Framed s a t c) ∧
      (∀ p, (t.children p).erase a = (s.children p).erase a) ∧
      ∀ c, s.formula? c = none → ∀ later : List (Address × Edit), (∀ x ∈ later, x.1 ≠ c) →
        (s.perform later).formula? c = none ∧ (s.perform later).value? c = s.value? c := by
  intro s
  have linked : Linked s := linked_perform linked_blank history
  refine ⟨fun c hc => framed linked h hc, (edited linked h).erase_children linked, ?_⟩
  exact fun c plain later others => perform_of_other_targets linked plain others

/-- A cell that reads another one does so still after the other one has been given a value. -/
theorem edit_frame_reader :
    let e : Extent := ⟨1, 2, by decide, by decide, by decide, by decide⟩
    let a : Address := ⟨0, 0⟩
    let b : Address := ⟨0, 1⟩
    let s := (blank e).perform [(b, .formula (.reference a))]
    ∃ t r, s.edit a (.value (.number 5)) = .ok (t, r) ∧
      t.formula? b = some (.reference a) ∧ t.parents b = [a] ∧
      (t.children a).erase a = (s.children a).erase a ∧ b ∈ s.children a := by
  intro e a b s
  have ha : a ∈ e := by decide
  have hb : b ∈ e := by decide
  obtain ⟨u, -, -, first, go⟩ := exists_edited linked_blank (.formula (.reference a)) hb
    fun p hp => List.mem_singleton.mp hp ▸ ha
  have same : s = u := go _
  have linked : Linked s := same ▸ first.linked
  have reader : s.formula? b = some (.reference a) := same ▸ first.formula_target
  have parents : s.parents b = [a] := linked.parents_of_formula reader
  obtain ⟨t, r, h, -, -⟩ := exists_edited linked (.value (.number 5)) ha
    fun p hp => absurd hp List.not_mem_nil
  obtain ⟨others, children, -⟩ := edit_frame e [(b, .formula (.reference a))] h
  have kept : Framed s a t b := others b (by decide)
  refine ⟨t, r, h, kept.formula.trans reader, kept.parents.trans parents, children a, ?_⟩
  rw [linked.mem_children, parents]
  exact List.mem_singleton_self a

end ReactiveSheet.Sheet
