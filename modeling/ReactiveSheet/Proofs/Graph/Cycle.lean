import Mathlib.Data.Finset.Card
import Mathlib.Data.List.Nodup
import ReactiveSheet.Proofs.Graph.Reach

/-!
`findCycle` finds something exactly if its start is behind a cycle, and then a path that closes one.

A node is cleared only when all its links go to cleared nodes, so no cleared node is behind a
cycle. A link back to the path closes a cycle, because every node on the path leads to its end.

`Ends` is the search with nothing that bounds it: it says that the search comes to an end, and with
which result. As long as there is room for all nodes, the bounded search is one that ends so.
-/

namespace ReactiveSheet.Graph

open Relation (ReflTransGen TransGen)
open Std (HashMap)

variable {α : Type}

section Searching

/-- Every link of a node on the path is still to be followed, goes to a cleared node or is the one
that the path goes on with; the nodes stand in the list from the end of the path to its start. -/
def Accounted (next : α → List α) (cleared : α → Prop) : Option α → List (Stop α) → Prop
  | _, [] => True
  | taken, stop :: stops =>
    (∀ b ∈ next stop.node, b ∈ stop.pending ∨ cleared b ∨ taken = some b) ∧
      (∀ b ∈ stop.pending, b ∈ next stop.node) ∧ Accounted next cleared (some stop.node) stops

variable [BEq α] [Hashable α]

structure Searching (next : α → List α) (nodes : Finset α) (start : α) (room : Nat)
    (marks : HashMap α Mark) (stops : List (Stop α)) : Prop where
  links : ∀ a, ∀ b ∈ next a, b ∈ nodes
  onPath : ∀ a, marks[a]? = some .onPath ↔ a ∈ stops.map Stop.node
  cleared : ∀ a, marks[a]? = some .cleared → ¬ Behind next a
  accounted : Accounted next (fun a => marks[a]? = some .cleared) none stops
  once : (stops.map Stop.node).Nodup
  path : stops.Pairwise fun late early => Leads next early.node late.node
  reached : ∀ stop ∈ stops, Leads next start stop.node
  met : start ∈ stops.map Stop.node ∨ marks[start]? = some .cleared
  enough : nodes.card ≤ room + (nodes.filter fun a => marks[a]?.isSome).card

variable {next : α → List α} {nodes : Finset α} {start : α}

omit [BEq α] [Hashable α] in
theorem Accounted.imp {cleared cleared' : α → Prop} {taken taken' : Option α}
    {stops : List (Stop α)} (h : Accounted next cleared taken stops)
    (keep : ∀ a, cleared a → cleared' a)
    (passed : ∀ a, taken = some a → cleared' a ∨ taken' = some a) :
    Accounted next cleared' taken' stops := by
  induction stops generalizing taken taken' with
  | nil => trivial
  | cons stop stops ih =>
    obtain ⟨all, own, rest⟩ := h
    refine ⟨?_, own, ih rest fun a ha => Or.inr ha⟩
    intro b link
    rcases all b link with k | k | k
    · exact Or.inl k
    · exact Or.inr (Or.inl (keep b k))
    · exact Or.inr (passed b k)

theorem Searching.off_cycles {room : Nat} {marks : HashMap α Mark} {a : α} {stops : List (Stop α)}
    (h : Searching next nodes start room marks (⟨a, []⟩ :: stops)) : ¬ Behind next a := by
  intro behind
  obtain ⟨b, link, behindb⟩ := behind_iff.mp behind
  have := h.accounted.1 b link
  simp only [List.not_mem_nil, reduceCtorEq, or_false, false_or] at this
  exact h.cleared b this behindb

variable [LawfulBEq α]

theorem Searching.clear {room : Nat} {marks : HashMap α Mark} {a : α} {stops : List (Stop α)}
    (h : Searching next nodes start room marks (⟨a, []⟩ :: stops)) :
    Searching next nodes start room (marks.insert a .cleared) stops := by
  have off := h.off_cycles
  have once := List.nodup_cons.mp h.once
  have marked (b : α) : (marks.insert a .cleared)[b]? = some .cleared ↔
      b = a ∨ marks[b]? = some .cleared := by
    rw [HashMap.getElem?_insert]
    by_cases hb : a = b
    · subst hb
      simp
    · simp [hb, Ne.symm hb]
  constructor
  case links =>
    exact h.links
  case onPath =>
    intro b
    rw [HashMap.getElem?_insert]
    by_cases hb : a = b
    · subst hb
      simpa using once.1
    · simp [hb, h.onPath, Ne.symm hb]
  case cleared =>
    intro b hb
    rcases (marked b).mp hb with rfl | hb
    · exact off
    · exact h.cleared b hb
  case accounted =>
    -- the link that the path went on with goes to a cleared node now
    refine h.accounted.2.2.imp (fun b hb => (marked b).mpr (Or.inr hb)) ?_
    intro b hb
    exact Or.inl ((marked b).mpr (Or.inl (Option.some.inj hb).symm))
  case once =>
    exact once.2
  case path =>
    exact h.path.of_cons
  case reached =>
    exact fun stop hs => h.reached stop (List.mem_cons_of_mem _ hs)
  case met =>
    rcases h.met with hs | hs
    · rcases List.mem_cons.mp hs with rfl | hs
      · exact Or.inr (HashMap.getElem?_insert_self)
      · exact Or.inl hs
    · exact Or.inr ((marked start).mpr (Or.inr hs))
  case enough =>
    refine h.enough.trans (Nat.add_le_add_left (Finset.card_le_card ?_) room)
    intro b hb
    rw [Finset.mem_filter] at hb ⊢
    refine ⟨hb.1, ?_⟩
    rw [HashMap.getElem?_insert]
    split
    · rfl
    · exact hb.2

omit [LawfulBEq α] in
theorem Searching.skip {room : Nat} {marks : HashMap α Mark} {a b : α} {pending : List α}
    {stops : List (Stop α)}
    (h : Searching next nodes start room marks (⟨a, b :: pending⟩ :: stops))
    (old : marks[b]? = some .cleared) :
    Searching next nodes start room marks (⟨a, pending⟩ :: stops) where
  links := h.links
  onPath := h.onPath
  cleared := h.cleared
  accounted := by
    obtain ⟨all, own, rest⟩ := h.accounted
    refine ⟨?_, fun c hc => own c (List.mem_cons_of_mem _ hc), rest⟩
    intro c link
    rcases all c link with k | k | k
    · rcases List.mem_cons.mp k with rfl | k
      · exact Or.inr (Or.inl old)
      · exact Or.inl k
    · exact Or.inr (Or.inl k)
    · exact Or.inr (Or.inr k)
  once := h.once
  path := by
    obtain ⟨first, rest⟩ := List.pairwise_cons.mp h.path
    exact List.pairwise_cons.mpr ⟨first, rest⟩
  reached stop hs := by
    rcases List.mem_cons.mp hs with rfl | hs
    · exact h.reached ⟨a, b :: pending⟩ List.mem_cons_self
    · exact h.reached stop (List.mem_cons_of_mem _ hs)
  met := h.met
  enough := h.enough

theorem Searching.extend {room : Nat} {marks : HashMap α Mark} {a b : α} {pending : List α}
    {stops : List (Stop α)}
    (h : Searching next nodes start (room + 1) marks (⟨a, b :: pending⟩ :: stops))
    (new : marks[b]? = none) :
    Searching next nodes start room (marks.insert b .onPath)
      (⟨b, next b⟩ :: ⟨a, pending⟩ :: stops) := by
  obtain ⟨all, own, rest⟩ := h.accounted
  have link : b ∈ next a := own b List.mem_cons_self
  have off : b ∉ (⟨a, b :: pending⟩ :: stops).map Stop.node := fun k => by
    simpa [new] using (h.onPath b).mpr k
  have kept (c : α) (hc : marks[c]?.isSome) : (marks.insert b .onPath)[c]? = marks[c]? := by
    rw [HashMap.getElem?_insert, if_neg]
    intro k
    rw [← eq_of_beq k, new] at hc
    exact absurd hc (by simp)
  obtain ⟨first, others⟩ := List.pairwise_cons.mp h.path
  constructor
  case links =>
    exact h.links
  case onPath =>
    intro c
    rw [HashMap.getElem?_insert]
    by_cases hc : b = c
    · subst hc
      simp
    · have := h.onPath c
      simp only [List.map_cons, List.mem_cons] at this
      simp [hc, Ne.symm hc, this]
  case cleared =>
    intro c hc
    rw [HashMap.getElem?_insert] at hc
    split at hc
    · simp at hc
    · exact h.cleared c hc
  case accounted =>
    refine ⟨fun c hc => Or.inl hc, fun c hc => hc, ?_⟩
    refine ⟨?_, fun c hc => own c (List.mem_cons_of_mem _ hc), ?_⟩
    · intro c hc
      rcases all c hc with k | k | k
      · rcases List.mem_cons.mp k with rfl | k
        · exact Or.inr (Or.inr rfl)
        · exact Or.inl k
      · exact Or.inr (Or.inl ((kept c (by simp [k])).trans k))
      · simp at k
    · exact rest.imp (fun c hc => (kept c (by simp [hc])).trans hc) fun c hc => Or.inr hc
  case once =>
    exact List.nodup_cons.mpr ⟨off, h.once⟩
  case path =>
    refine List.pairwise_cons.mpr ⟨?_, List.pairwise_cons.mpr ⟨first, others⟩⟩
    intro stop hs
    rcases List.mem_cons.mp hs with rfl | hs
    · exact .single link
    · exact (first stop hs).tail link
  case reached =>
    intro stop hs
    have here : Leads next start a := h.reached ⟨a, b :: pending⟩ List.mem_cons_self
    rcases List.mem_cons.mp hs with rfl | hs
    · exact here.tail link
    rcases List.mem_cons.mp hs with rfl | hs
    · exact here
    · exact h.reached stop (List.mem_cons_of_mem _ hs)
  case met =>
    rcases h.met with k | k
    · exact Or.inl (List.mem_cons_of_mem _ k)
    · exact Or.inr ((kept start (by simp [k])).trans k)
  case enough =>
    -- the new node was not marked before, so the room it takes is made up for
    have more : (nodes.filter fun c => marks[c]?.isSome).card <
        (nodes.filter fun c => (marks.insert b .onPath)[c]?.isSome).card := by
      refine Finset.card_lt_card ⟨?_, ?_⟩
      · intro c hc
        rw [Finset.mem_filter] at hc ⊢
        exact ⟨hc.1, by rw [kept c hc.2]; exact hc.2⟩
      · intro k
        have : b ∈ nodes.filter fun c => marks[c]?.isSome :=
          k (Finset.mem_filter.mpr ⟨h.links a b link, by simp⟩)
        rw [Finset.mem_filter, new] at this
        exact absurd this.2 (by simp)
    have := h.enough
    omega

omit [LawfulBEq α] in
theorem Searching.room_pos {room : Nat} {marks : HashMap α Mark} {a b : α} {pending : List α}
    {stops : List (Stop α)}
    (h : Searching next nodes start room marks (⟨a, b :: pending⟩ :: stops))
    (new : marks[b]? = none) : room ≠ 0 := by
  have link : b ∈ nodes := h.links a b (h.accounted.2.1 b List.mem_cons_self)
  have fewer : (nodes.filter fun c => marks[c]?.isSome).card < nodes.card := by
    refine Finset.card_lt_card ⟨Finset.filter_subset _ _, ?_⟩
    intro k
    have := k link
    simp [new] at this
  have := h.enough
  omega

omit [LawfulBEq α] in
theorem Searching.closes {room : Nat} {marks : HashMap α Mark} {a b : α} {pending : List α}
    {stops : List (Stop α)}
    (h : Searching next nodes start room marks (⟨a, b :: pending⟩ :: stops))
    (back : marks[b]? = some .onPath) : Behind next start := by
  have link : b ∈ next a := h.accounted.2.1 b List.mem_cons_self
  have here : Leads next start a := h.reached ⟨a, b :: pending⟩ List.mem_cons_self
  have round : Leads next b a := by
    rcases List.mem_cons.mp ((h.onPath b).mp back) with rfl | hb
    · exact .refl
    · obtain ⟨stop, hs, rfl⟩ := List.mem_map.mp hb
      exact (List.pairwise_cons.mp h.path).1 stop hs
  exact ⟨b, here.tail link, TransGen.tail'_iff.mpr ⟨a, round, link⟩⟩

theorem Searching.isSome_search {room : Nat} {marks : HashMap α Mark} {stops : List (Stop α)}
    (h : Searching next nodes start room marks stops) :
    (search next room marks stops).isSome ↔ Behind next start := by
  fun_induction search next room marks stops with
  | case1 room marks =>
    rcases h.met with k | k
    · simp at k
    · simpa using h.cleared start k
  | case2 room marks a stops ih => exact ih h.clear
  | case3 room marks a b pending stops back => simpa using h.closes back
  | case4 room marks a b pending stops old ih => exact ih (h.skip old)
  | case5 marks a b pending stops new => exact absurd rfl (h.room_pos new)
  | case6 marks a b pending stops new room ih => exact ih (h.extend new)

theorem searching_start (links : ∀ a, ∀ b ∈ next a, b ∈ nodes) {room : Nat}
    (enough : nodes.card ≤ room) :
    Searching next nodes start room ((∅ : HashMap α Mark).insert start .onPath)
      [⟨start, next start⟩] := by
  have marked (a : α) : ((∅ : HashMap α Mark).insert start .onPath)[a]? =
      if start == a then some .onPath else none := by
    rw [HashMap.getElem?_insert, HashMap.getElem?_empty]
  constructor
  case links =>
    exact links
  case onPath =>
    intro a
    rw [marked]
    by_cases ha : start = a
    · simp [ha]
    · simp [ha, Ne.symm ha]
  case cleared =>
    intro a ha
    rw [marked] at ha
    split at ha <;> simp at ha
  case accounted =>
    exact ⟨fun b link => Or.inl link, fun b link => link, trivial⟩
  case once =>
    simp
  case path =>
    simp
  case reached =>
    intro stop hs
    rw [List.mem_singleton.mp hs]
    exact .refl
  case met =>
    simp
  case enough =>
    omega

theorem isSome_findCycle (links : ∀ a, ∀ b ∈ next a, b ∈ nodes) {room : Nat}
    (enough : nodes.card ≤ room) : (findCycle next room start).isSome ↔ Behind next start :=
  (searching_start links enough).isSome_search

end Searching

/-- The nodes on the path of a search, its end first, follow links from the start. -/
structure Trail (next : α → List α) (start : α) (nodes : List α) : Prop where
  links : nodes.IsChain fun late early => Link next early late
  starts : ∀ a ∈ nodes.getLast?, a = start

/-- A path from the start along links which ends where it has been once before, and before that
passes no node twice. -/
structure Closes (next : α → List α) (start : α) (earlier : List α) (last : α) : Prop where
  starts : earlier.head? = some start
  links : (earlier ++ [last]).IsChain (Link next)
  distinct : earlier.Nodup
  again : last ∈ earlier

variable {next : α → List α} {start a b : α} {nodes : List α}

theorem Trail.tail (h : Trail next start (a :: nodes)) : Trail next start nodes where
  links := h.links.tail
  starts b hb := by
    refine h.starts b ?_
    rw [List.getLast?_cons, Option.mem_def.mp hb]
    rfl

theorem Trail.cons (h : Trail next start (a :: nodes)) (link : b ∈ next a) :
    Trail next start (b :: a :: nodes) where
  links := .cons_cons link h.links
  starts := by
    rw [List.getLast?_cons_cons]
    exact h.starts

theorem Trail.closes (h : Trail next start (a :: nodes)) (once : (a :: nodes).Nodup)
    (link : b ∈ next a) (back : b ∈ a :: nodes) : Closes next start (a :: nodes).reverse b where
  starts := by
    rw [List.head?_reverse]
    have last := List.getLast?_eq_some_getLast (List.cons_ne_nil a nodes)
    rw [last, h.starts _ last]
  links := by
    rw [← List.reverse_cons, List.isChain_reverse]
    exact .cons_cons link h.links
  distinct := List.nodup_reverse.mpr once
  again := List.mem_reverse.mpr back

theorem Closes.count_eq_one [BEq α] [LawfulBEq α] {earlier : List α} {last : α}
    (h : Closes next start earlier last) : earlier.count last = 1 :=
  List.count_eq_one_of_mem h.distinct h.again

variable [BEq α] [Hashable α]

/-- The search with no bound on the nodes that can still be met comes to an end with this result. -/
inductive Ends (next : α → List α) : HashMap α Mark → List (Stop α) → Option (List α) → Prop where
  | nothing (marks) : Ends next marks [] none
  | back {marks a stops found} (rest : Ends next (marks.insert a .cleared) stops found) :
    Ends next marks (⟨a, []⟩ :: stops) found
  | closed {marks b} (a : α) (pending stops) (h : marks[b]? = some .onPath) :
    Ends next marks (⟨a, b :: pending⟩ :: stops) (some (pathOf (⟨a, pending⟩ :: stops) ++ [b]))
  | skip {marks a b pending stops found} (h : marks[b]? = some .cleared)
    (rest : Ends next marks (⟨a, pending⟩ :: stops) found) :
    Ends next marks (⟨a, b :: pending⟩ :: stops) found
  | extend {marks a b pending stops found} (h : marks[b]? = none)
    (rest : Ends next (marks.insert b .onPath) (⟨b, next b⟩ :: ⟨a, pending⟩ :: stops) found) :
    Ends next marks (⟨a, b :: pending⟩ :: stops) found

def Returns (next : α → List α) (start : α) (found : Option (List α)) : Prop :=
  Ends next ((∅ : HashMap α Mark).insert start .onPath) [⟨start, next start⟩] found

variable {marks : HashMap α Mark} {stops : List (Stop α)} {room : Nat}

theorem Ends.unique {found other : Option (List α)} (h : Ends next marks stops found)
    (k : Ends next marks stops other) : found = other := by
  induction h with
  | nothing marks => cases k; rfl
  | back rest ih => cases k with | back rest' => exact ih rest'
  | closed a pending stops h =>
    cases k with
    | closed _ _ _ _ => rfl
    | skip h' _ => exact nomatch h.symm.trans h'
    | extend h' _ => exact nomatch h.symm.trans h'
  | skip h rest ih =>
    cases k with
    | closed _ _ _ h' => exact nomatch h.symm.trans h'
    | skip _ rest' => exact ih rest'
    | extend h' _ => exact nomatch h.symm.trans h'
  | extend h rest ih =>
    cases k with
    | closed _ _ _ h' => exact nomatch h.symm.trans h'
    | skip h' _ => exact nomatch h.symm.trans h'
    | extend _ rest' => exact ih rest'

variable [LawfulBEq α] {all : Finset α}

theorem Searching.ends (h : Searching next all start room marks stops) :
    Ends next marks stops (search next room marks stops) := by
  fun_induction search next room marks stops with
  | case1 room marks => exact .nothing marks
  | case2 room marks a stops ih => exact .back (ih h.clear)
  | case3 room marks a b pending stops back => exact .closed a pending stops back
  | case4 room marks a b pending stops old ih => exact .skip old (ih (h.skip old))
  | case5 marks a b pending stops new => exact absurd rfl (h.room_pos new)
  | case6 marks a b pending stops new room ih => exact .extend new (ih (h.extend new))

theorem Searching.closes_of_search (h : Searching next all start room marks stops)
    (trail : Trail next start (stops.map Stop.node)) {path : List α}
    (found : search next room marks stops = some path) :
    ∃ earlier last, path = earlier ++ [last] ∧ Closes next start earlier last := by
  fun_induction search next room marks stops with
  | case1 room marks => cases found
  | case2 room marks a stops ih => exact ih h.clear trail.tail found
  | case3 room marks a b pending stops back =>
    have link : b ∈ next a := h.accounted.2.1 b List.mem_cons_self
    exact ⟨_, b, (Option.some.inj found).symm,
      trail.closes h.once link ((h.onPath b).mp back)⟩
  | case4 room marks a b pending stops old ih => exact ih (h.skip old) trail found
  | case5 marks a b pending stops new => cases found
  | case6 marks a b pending stops new room ih =>
    have link : b ∈ next a := h.accounted.2.1 b List.mem_cons_self
    exact ih (h.extend new) (trail.cons link) found

variable (links : ∀ a, ∀ b ∈ next a, b ∈ all) (enough : all.card ≤ room)

include links enough

/-- With room for all nodes, the search returns what it returns when nothing bounds it. -/
theorem returns_iff {found : Option (List α)} :
    Returns next start found ↔ found = findCycle next room start := by
  have ends : Returns next start (findCycle next room start) :=
    (searching_start links enough).ends
  constructor
  · exact fun h => h.unique ends
  · exact fun same => same ▸ ends

theorem closes_of_findCycle {path : List α} (found : findCycle next room start = some path) :
    ∃ earlier last, path = earlier ++ [last] ∧ Closes next start earlier last := by
  refine (searching_start links enough).closes_of_search ⟨.singleton start, ?_⟩ found
  exact fun a ha => (Option.some.inj ha).symm

end ReactiveSheet.Graph
