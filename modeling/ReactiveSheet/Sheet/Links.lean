import Std.Data.HashMap
import Std.Data.HashSet
import ReactiveSheet.Sheet.Basic

/-!
The links of a sheet: how they are changed, and what they connect.

A graph is given by a function from a node to the nodes it links to; `room` bounds how many nodes a
search can still meet for the first time. `Graph.reach` follows links to nodes not seen before.
`Graph.findCycle` goes depth first: a link back to a node on the path closes a cycle, and a node
whose links have all been followed is cleared.

`relink` gives a cell other parents. Each link that goes or comes is changed at both of its ends
before the next one. `downstream` lists the cells that depend on a cell, and `cycleFrom?` finds a
circle among the cells that a cell depends on.
-/

namespace ReactiveSheet

namespace Graph

open Std (HashMap HashSet)

variable {α : Type} [BEq α] [Hashable α]

def explore (next : α → List α) (room : Nat) (seen : HashSet α) (found : List α) :
    List α → List α
  | [] => found
  | a :: pending =>
    if seen.contains a then explore next room seen found pending
    else
      match room with
      | 0 => found
      | room + 1 => explore next room (seen.insert a) (a :: found) (next a ++ pending)
termination_by pending => (room, pending.length)

/-- The nodes other than `origin` that can be reached from it, in no special order. There must be
room for all of them. -/
def reach (next : α → List α) (room : Nat) (origin : α) : List α :=
  explore next room ((∅ : HashSet α).insert origin) [] (next origin)

inductive Mark where
  | onPath
  | cleared
  deriving DecidableEq, Repr

/-- A node on the path with its links still to be followed. -/
structure Stop (α : Type) where
  node : α
  pending : List α

def pathOf (stops : List (Stop α)) : List α := (stops.map Stop.node).reverse

@[simp] def load : List (Stop α) → Nat
  | [] => 0
  | stop :: stops => stop.pending.length + 1 + load stops

/-- Goes on from the end of the path, which is the head of the list. -/
def search (next : α → List α) (room : Nat) (marks : HashMap α Mark) :
    List (Stop α) → Option (List α)
  | [] => none
  | ⟨a, []⟩ :: stops => search next room (marks.insert a .cleared) stops
  | ⟨a, b :: pending⟩ :: stops =>
    match marks[b]? with
    | some .onPath => some (pathOf (⟨a, pending⟩ :: stops) ++ [b])
    | some .cleared => search next room marks (⟨a, pending⟩ :: stops)
    | none =>
      match room with
      | 0 => none
      | room + 1 =>
        search next room (marks.insert b .onPath) (⟨b, next b⟩ :: ⟨a, pending⟩ :: stops)
termination_by stops => (room, load stops)

/-- A path along links from `start` to a node that is already on the path, if any cycle can be
reached from `start`. There must be room for all the other nodes. -/
def findCycle (next : α → List α) (room : Nat) (start : α) : Option (List α) :=
  search next room ((∅ : HashMap α Mark).insert start .onPath) [⟨start, next start⟩]

end Graph

namespace Sheet

variable {e : Extent}

def atBothEnds (change : Address → List Address → List Address) (s : Sheet e)
    (child parent : Address) : Sheet e :=
  (s.modify parent fun c => { c with children := change child c.children }).modify child
    fun c => { c with parents := change parent c.parents }

def link : Sheet e → Address → Address → Sheet e := atBothEnds Address.insert

def unlink : Sheet e → Address → Address → Sheet e := atBothEnds fun a set => set.erase a

/-- Gives the cell at `a` these parents. Only the links that differ are touched, one by one. -/
def relink (s : Sheet e) (a : Address) (parents : List Address) : Sheet e :=
  if a ∈ e then
    let old := s.parents a
    let gone := old.filter (· ∉ parents)
    let fresh := parents.filter (· ∉ old)
    fresh.foldl (fun s p => s.link a p) (gone.foldl (fun s p => s.unlink a p) s)
  else s

def downstream (s : Sheet e) (origin : Address) : List Address :=
  (Graph.reach s.children e.area origin).mergeSort fun a b => decide (a ≤ b)

/-- A path from `a` to a parent, on to one of its parents, and so on, that ends where it has
already been. Parents are tried in order. -/
def cycleFrom? (s : Sheet e) (a : Address) : Option (List Address) :=
  Graph.findCycle s.parents e.area a

end Sheet

end ReactiveSheet
