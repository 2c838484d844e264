import Mathlib.Data.Finset.Card
import Mathlib.Data.Fintype.Order
import Mathlib.Data.List.Perm.Basic
import Mathlib.Data.Set.Finite.Basic
import Mathlib.Logic.Relation
import Mathlib.Order.WellFounded
import ReactiveSheet.Sheet.Links

/-!
Paths in a graph, and the search for what can be reached from a node.

A node is behind a cycle if a cycle can be reached from it, the nodes of the cycle included. Away
from cycles a finite graph has no endless paths, so what holds of a node whenever it holds of all
the nodes it links to holds of every node that is not behind a cycle.

A search takes any of the pending nodes: the origin and the nodes found before are passed over, and
the links of a new node become pending. Each link is looked at once, so a search ends; and when
nothing is pending any more it has found the nodes other than the origin that paths of at least one
link lead to. If all links go to nodes of a finite set and there is room for as many nodes as it
has, `reach` is a search that goes on until nothing is pending.
-/

namespace ReactiveSheet.Graph

open Relation (ReflTransGen TransGen)
open Std (HashSet)

variable {α : Type}

def Link (next : α → List α) (a b : α) : Prop := b ∈ next a

def Leads (next : α → List α) : α → α → Prop := ReflTransGen (Link next)

def OnCycle (next : α → List α) (a : α) : Prop := TransGen (Link next) a a

def Behind (next : α → List α) (a : α) : Prop := ∃ b, Leads next a b ∧ OnCycle next b

variable {next : α → List α} {a b : α}

theorem OnCycle.behind (h : OnCycle next a) : Behind next a := ⟨a, .refl, h⟩

theorem Behind.of_link (h : Behind next b) (link : b ∈ next a) : Behind next a := by
  obtain ⟨c, path, cycle⟩ := h
  exact ⟨c, path.head link, cycle⟩

theorem Behind.of_leads (h : Behind next b) (path : Leads next a b) : Behind next a := by
  obtain ⟨c, rest, cycle⟩ := h
  exact ⟨c, path.trans rest, cycle⟩

theorem Behind.mono {more : α → List α} (h : ∀ a, ∀ b ∈ next a, b ∈ more a)
    (behind : Behind next a) : Behind more a := by
  obtain ⟨b, path, cycle⟩ := behind
  exact ⟨b, ReflTransGen.mono h _ _ path, TransGen.mono h _ _ cycle⟩

theorem behind_iff : Behind next a ↔ ∃ b ∈ next a, Behind next b := by
  constructor
  · rintro ⟨c, path, cycle⟩
    rcases path.cases_head with rfl | ⟨b, link, rest⟩
    · obtain ⟨b, link, back⟩ := TransGen.head'_iff.mp cycle
      exact ⟨b, link, a, back, cycle⟩
    · exact ⟨b, link, c, rest, cycle⟩
  · rintro ⟨b, link, h⟩
    exact h.of_link link

/-- Links cannot be followed for ever among the nodes that are not behind a cycle. -/
theorem induction_off_cycles (fin : {a | next a ≠ []}.Finite) {P : α → Prop}
    (step : ∀ a, ¬ Behind next a → (∀ b ∈ next a, P b) → P a) : ∀ a, ¬ Behind next a → P a := by
  -- The nodes with links are finitely many, and away from cycles paths put them in an order.
  let Inner := {a // a ∈ {a | next a ≠ []} ∧ ¬ Behind next a}
  have : Finite Inner := (fin.subset fun a h => h.1).to_subtype
  let below : Inner → Inner → Prop := fun b a => TransGen (Link next) a.1 b.1
  have : IsTrans Inner below := ⟨fun _ _ _ h k => k.trans h⟩
  have : Std.Irrefl below := ⟨fun a h => a.2.2 (OnCycle.behind h)⟩
  have wf : WellFounded below := Finite.wellFounded_of_trans_of_irrefl below
  have links (a : α) (off : ¬ Behind next a)
      (ih : ∀ b : Inner, b.1 ∈ next a → P b.1) : P a := by
    apply step a off
    intro b link
    have offb : ¬ Behind next b := fun h => off (h.of_link link)
    by_cases none : next b = []
    · exact step b offb (by simp [none])
    · exact ih ⟨b, none, offb⟩ link
  have inner (a : Inner) : P a.1 := by
    induction a using wf.induction with
    | h a ih => exact links a.1 a.2.2 fun b link => ih b (.single link)
  exact fun a off => links a off fun b _ => inner b

/-- Nodes that can always be followed to another one of them are behind cycles. -/
theorem behind_of_endless (fin : {a | next a ≠ []}.Finite) {S : α → Prop}
    (endless : ∀ a, S a → ∃ b ∈ next a, S b) (ha : S a) : Behind next a := by
  by_contra off
  refine induction_off_cycles fin (P := fun a => ¬ S a) ?_ a off ha
  intro a _ none sa
  obtain ⟨b, link, sb⟩ := endless a sa
  exact none b link sb

theorem transGen_reverse {back : α → List α} (h : ∀ a b, a ∈ back b ↔ b ∈ next a) :
    TransGen (Link back) b a ↔ TransGen (Link next) a b := by
  have : Link back = Function.swap (Link next) := by
    funext b a
    exact propext (h a b)
  rw [this]
  exact Relation.transGen_swap

structure Frontier (α : Type) where
  found : List α
  pending : List α

/-- One step of a search, with any of the pending nodes. -/
inductive Advance (next : α → List α) (origin : α) : Frontier α → Frontier α → Prop where
  | pass {found pending rest : List α} {a : α} (due : pending.Perm (a :: rest))
    (old : a = origin ∨ a ∈ found) : Advance next origin ⟨found, pending⟩ ⟨found, rest⟩
  | take {found pending rest more : List α} {a : α} (due : pending.Perm (a :: rest))
    (new : ¬ (a = origin ∨ a ∈ found)) (joined : more.Perm (next a ++ rest)) :
    Advance next origin ⟨found, pending⟩ ⟨a :: found, more⟩

inductive Advances (next : α → List α) (origin : α) : Nat → Frontier α → Frontier α → Prop where
  | none (f : Frontier α) : Advances next origin 0 f f
  | step {n : Nat} {f g h : Frontier α} (first : Advance next origin f g)
    (others : Advances next origin n g h) : Advances next origin (n + 1) f h

/-- What is true of a search that started with the links of the origin. -/
structure Reaching (next : α → List α) (origin : α) (f : Frontier α) : Prop where
  other : origin ∉ f.found
  nodup : f.found.Nodup
  reached : ∀ a ∈ f.found, TransGen (Link next) origin a
  ahead : ∀ a ∈ f.pending, TransGen (Link next) origin a
  followed : ∀ a, a = origin ∨ a ∈ f.found → ∀ b ∈ next a,
    (b = origin ∨ b ∈ f.found) ∨ b ∈ f.pending

variable {origin : α} {n : Nat} {f g : Frontier α}

theorem reaching_start (next : α → List α) (origin : α) :
    Reaching next origin ⟨[], next origin⟩ where
  other := List.not_mem_nil
  nodup := List.nodup_nil
  reached a ha := absurd ha List.not_mem_nil
  ahead a link := .single link
  followed a ha b link := by
    obtain rfl : a = origin := ha.resolve_right List.not_mem_nil
    exact Or.inr link

theorem Reaching.advance (h : Reaching next origin f) (step : Advance next origin f g) :
    Reaching next origin g := by
  cases step with
  | @pass found pending rest a due old =>
    refine { h with ahead := ?_, followed := ?_ }
    · exact fun b hb => h.ahead b (due.mem_iff.mpr (List.mem_cons_of_mem a hb))
    · intro b hb c link
      rcases h.followed b hb c link with k | k
      · exact Or.inl k
      · rcases List.mem_cons.mp (due.mem_iff.mp k) with rfl | k
        · exact Or.inl old
        · exact Or.inr k
  | @take found pending rest more a due new joined =>
    have path : TransGen (Link next) origin a := h.ahead a (due.mem_iff.mpr List.mem_cons_self)
    constructor
    case other =>
      intro k
      rcases List.mem_cons.mp k with k | k
      · exact new (Or.inl k.symm)
      · exact h.other k
    case nodup =>
      exact List.nodup_cons.mpr ⟨fun k => new (Or.inr k), h.nodup⟩
    case reached =>
      exact List.forall_mem_cons.mpr ⟨path, h.reached⟩
    case ahead =>
      intro b hb
      rcases List.mem_append.mp (joined.mem_iff.mp hb) with link | k
      · exact path.tail link
      · exact h.ahead b (due.mem_iff.mpr (List.mem_cons_of_mem a k))
    case followed =>
      intro b hb c link
      -- the links of the node just taken are all pending, and those of the others were seen to
      have here (k : c ∈ next a ++ rest) : c ∈ more := joined.mem_iff.mpr k
      by_cases hba : b = a
      · subst hba
        exact Or.inr (here (List.mem_append_left _ link))
      have old : b = origin ∨ b ∈ found :=
        hb.imp_right fun k => (List.mem_cons.mp k).resolve_left hba
      rcases h.followed b old c link with k | k
      · exact Or.inl (k.imp_right (List.mem_cons_of_mem a))
      · rcases List.mem_cons.mp (due.mem_iff.mp k) with rfl | k
        · exact Or.inl (Or.inr List.mem_cons_self)
        · exact Or.inr (here (List.mem_append_right _ k))

theorem Reaching.advances (h : Reaching next origin f) (steps : Advances next origin n f g) :
    Reaching next origin g := by
  induction steps with
  | none f => exact h
  | step first _ ih => exact ih (h.advance first)

theorem Reaching.mem_found_iff {found : List α} (h : Reaching next origin ⟨found, []⟩) :
    a ∈ found ↔ a ≠ origin ∧ TransGen (Link next) origin a := by
  constructor
  · intro ha
    exact ⟨fun k => h.other (k ▸ ha), h.reached a ha⟩
  · rintro ⟨ne, path⟩
    -- By induction on the path, every node on it is `origin` or has been found.
    have : a = origin ∨ a ∈ found := by
      clear ne
      induction path with
      | single link => exact (h.followed origin (Or.inl rfl) _ link).resolve_right List.not_mem_nil
      | tail _ link ih => exact (h.followed _ ih _ link).resolve_right List.not_mem_nil
    exact this.resolve_left ne

def degree (next : α → List α) : List α → Nat
  | [] => 0
  | a :: as => (next a).length + degree next as

theorem degree_perm {as bs : List α} (h : as.Perm bs) : degree next as = degree next bs := by
  induction h with
  | nil => rfl
  | cons a _ ih => rw [degree, degree, ih]
  | swap a b as => simp only [degree, Nat.add_left_comm]
  | trans _ _ ih₁ ih₂ => exact ih₁.trans ih₂

theorem degree_le {all as : List α} (distinct : as.Nodup)
    (listed : ∀ a ∈ as, next a ≠ [] → a ∈ all) : degree next as ≤ degree next all := by
  classical
  induction as generalizing all with
  | nil => exact Nat.zero_le _
  | cons a as ih =>
    obtain ⟨new, distinct⟩ := List.nodup_cons.mp distinct
    obtain ⟨first, others⟩ := List.forall_mem_cons.mp listed
    by_cases none : next a = []
    · rw [degree, none, List.length_nil, Nat.zero_add]
      exact ih distinct others
    · have rest : ∀ b ∈ as, next b ≠ [] → b ∈ all.erase a := fun b hb some =>
        (List.mem_erase_of_ne (ne_of_mem_of_not_mem hb new)).mpr (others b hb some)
      rw [degree_perm (List.perm_cons_erase (first none)), degree, degree]
      exact Nat.add_le_add_left (ih distinct rest) _

theorem Advances.count (steps : Advances next origin n f g) :
    n + g.pending.length + degree next f.found = f.pending.length + degree next g.found := by
  induction steps with
  | none f => rw [Nat.zero_add]
  | step first _ ih =>
    cases first with
    | pass due old =>
      have used := due.length_eq
      simp only [List.length_cons] at used ih ⊢
      omega
    | take due new joined =>
      have used := due.length_eq
      have more := joined.length_eq
      simp only [List.length_cons, List.length_append, degree] at used more ih ⊢
      omega

/-- A search looks at each link once at most. -/
theorem Advances.le_degree {all : List α} (steps : Advances next origin n ⟨[], next origin⟩ f)
    (listed : ∀ a, next a ≠ [] → a ∈ all) : n ≤ degree next all := by
  have reaching := (reaching_start next origin).advances steps
  have distinct : (origin :: f.found).Nodup := List.nodup_cons.mpr ⟨reaching.other, reaching.nodup⟩
  have count := steps.count
  have most := degree_le distinct fun a _ => listed a
  simp only [degree] at count most
  omega

theorem exists_advance_iff : (∃ g, Advance next origin f g) ↔ f.pending ≠ [] := by
  obtain ⟨found, pending⟩ := f
  constructor
  · rintro ⟨g, step⟩ rfl
    cases step with
    | pass due old => exact List.cons_ne_nil _ _ due.symm.eq_nil
    | take due new joined => exact List.cons_ne_nil _ _ due.symm.eq_nil
  · intro some
    obtain ⟨a, rest, rfl⟩ := List.exists_cons_of_ne_nil some
    by_cases old : a = origin ∨ a ∈ found
    · exact ⟨_, .pass (.refl _) old⟩
    · exact ⟨_, .take (.refl _) old (.refl _)⟩

variable [BEq α] [Hashable α]

/-- What is true of a bounded search that started from `origin`, whenever the next pending node is
due. -/
structure Exploring (next : α → List α) (nodes : Finset α) (origin : α) (room : Nat)
    (seen : HashSet α) (found pending : List α) : Prop where
  reaching : Reaching next origin ⟨found, pending⟩
  links : ∀ a, ∀ b ∈ next a, b ∈ nodes
  seen_iff : ∀ a, a ∈ seen ↔ a = origin ∨ a ∈ found
  enough : nodes.card ≤ room + found.length

variable {nodes : Finset α} {room : Nat} {seen : HashSet α} {found pending : List α}

theorem Exploring.mem_nodes (h : Exploring next nodes origin room seen found pending)
    (path : TransGen (Link next) origin a) : a ∈ nodes := by
  obtain ⟨b, -, link⟩ := TransGen.tail'_iff.mp path
  exact h.links b a link

theorem Exploring.pass (h : Exploring next nodes origin room seen found (a :: pending))
    (old : a ∈ seen) : Advance next origin ⟨found, a :: pending⟩ ⟨found, pending⟩ :=
  .pass (.refl _) ((h.seen_iff a).mp old)

theorem Exploring.take (h : Exploring next nodes origin room seen found (a :: pending))
    (new : a ∉ seen) :
    Advance next origin ⟨found, a :: pending⟩ ⟨a :: found, next a ++ pending⟩ :=
  .take (.refl _) (mt (h.seen_iff a).mpr new) (.refl _)

theorem Exploring.skip (h : Exploring next nodes origin room seen found (a :: pending))
    (old : a ∈ seen) : Exploring next nodes origin room seen found pending :=
  { h with reaching := h.reaching.advance (h.pass old) }

theorem Exploring.room_pos (h : Exploring next nodes origin room seen found (a :: pending))
    (new : a ∉ seen) : room ≠ 0 := by
  classical
  intro zero
  have taken := h.reaching.advance (h.take new)
  have inside : (a :: found).toFinset ⊆ nodes := fun b hb =>
    h.mem_nodes (taken.reached b (List.mem_toFinset.mp hb))
  have count := Finset.card_le_card inside
  rw [List.toFinset_card_of_nodup taken.nodup, List.length_cons] at count
  have := h.enough
  omega

variable [LawfulBEq α]

theorem Exploring.discover (h : Exploring next nodes origin (room + 1) seen found (a :: pending))
    (new : a ∉ seen) :
    Exploring next nodes origin room (seen.insert a) (a :: found) (next a ++ pending) where
  reaching := h.reaching.advance (h.take new)
  links := h.links
  seen_iff b := by
    rw [HashSet.mem_insert, beq_iff_eq, eq_comm, h.seen_iff, List.mem_cons, or_left_comm]
  enough := by
    have := h.enough
    simp only [List.length_cons]
    omega

theorem Exploring.explore (h : Exploring next nodes origin room seen found pending) :
    ∃ n, Advances next origin n ⟨found, pending⟩ ⟨explore next room seen found pending, []⟩ := by
  fun_induction Graph.explore next room seen found pending with
  | case1 room seen found => exact ⟨0, .none _⟩
  | case2 room seen found a pending old ih =>
    have old : a ∈ seen := HashSet.mem_iff_contains.mpr old
    obtain ⟨n, others⟩ := ih (h.skip old)
    exact ⟨n + 1, .step (h.pass old) others⟩
  | case3 seen found a pending new =>
    exact absurd rfl (h.room_pos (mt HashSet.mem_iff_contains.mp new))
  | case4 seen found a pending new room ih =>
    have new : a ∉ seen := mt HashSet.mem_iff_contains.mp new
    obtain ⟨n, others⟩ := ih (h.discover new)
    exact ⟨n + 1, .step (h.take new) others⟩

theorem exploring_start (origin : α) (links : ∀ a, ∀ b ∈ next a, b ∈ nodes)
    (enough : nodes.card ≤ room) :
    Exploring next nodes origin room ((∅ : HashSet α).insert origin) [] (next origin) where
  reaching := reaching_start next origin
  links := links
  seen_iff a := by
    rw [HashSet.mem_insert, beq_iff_eq]
    exact or_congr eq_comm (by simp)
  enough := by simpa using enough

variable (links : ∀ a, ∀ b ∈ next a, b ∈ nodes) (enough : nodes.card ≤ room)

include links enough

/-- What is returned is what a search without a bound finds. -/
theorem exists_advances_reach (origin : α) :
    ∃ n, Advances next origin n ⟨[], next origin⟩ ⟨reach next room origin, []⟩ :=
  (exploring_start origin links enough).explore

theorem reaching_reach (origin : α) : Reaching next origin ⟨reach next room origin, []⟩ := by
  obtain ⟨n, steps⟩ := exists_advances_reach links enough origin
  exact (reaching_start next origin).advances steps

theorem nodup_reach : (reach next room origin).Nodup := (reaching_reach links enough origin).nodup

theorem mem_reach : a ∈ reach next room origin ↔ a ≠ origin ∧ TransGen (Link next) origin a :=
  (reaching_reach links enough origin).mem_found_iff

end ReactiveSheet.Graph
