import Std.Data.HashMap
import Std.Data.HashSet
import ReactiveSheet.Formula.Evaluation
import ReactiveSheet.Sheet.Links

/-!
Editing a sheet.

A cell is given a value, typed text or a formula. An edit fails only if the cell, or a cell that
the formula reads, lies outside, and then there is no new sheet. Otherwise the links are changed
first, then the value, and if the value is another than before, a wave goes through the cells that
depend on the edited one.

In a wave a cell gets its turn when all its parents that take part have had theirs; cells that wait
for each other in a circle, or behind one, are let go one at a time, the first address first. At its
turn a cell is evaluated again only if it is dirty, that is, if a parent of it has changed since it
was evaluated last. The cell that became ready last has its turn first. A cell that depends on a
cycle holds the cycle fault whatever its formula says.
-/

namespace ReactiveSheet

open Std (HashMap HashSet)

/-- What an edit did, each list in the order in which it happened. -/
structure Report where
  /-- Dependent cells whose formulas were evaluated again. -/
  recomputed : Array Address := #[]
  /-- Cells whose values changed, the edited one included. -/
  changed : Array Address := #[]
  cycles : Array Address := #[]
  deriving DecidableEq, Repr

namespace Sheet

variable {e : Extent}

/-- Stores a value. The last component says whether it is another than before. -/
def store (s : Sheet e) (a : Address) (v : Value) (r : Report) : Sheet e × Report × Bool :=
  if s.value? a == some v then (s, r, false)
  else (s.modify a fun c => { c with value := v }, { r with changed := r.changed.push a }, true)

def settle (s : Sheet e) (a : Address) (f : Formula) (r : Report) : Sheet e × Report × Bool :=
  match s.cycleFrom? a with
  | some _ => s.store a (.fault .cycle) { r with cycles := r.cycles.push a }
  | none => s.store a (f.evaluate s.value?) r

def recompute (s : Sheet e) (a : Address) (r : Report) : Sheet e × Report × Bool :=
  match s.formula? a with
  | none => (s, r, false)
  | some f => s.settle a f { r with recomputed := r.recomputed.push a }

end Sheet

structure Wave (e : Extent) where
  sheet : Sheet e
  report : Report
  /-- Cells whose turn it is, the next one first. -/
  ready : List Address
  /-- Cells that may have to be let go, in ascending order. -/
  held : List Address
  /-- For each cell that waits, the number of parents it waits for. -/
  waiting : HashMap Address Nat
  /-- Cells with a parent that has changed. -/
  dirty : HashSet Address
  /-- Cells that have had their turn. -/
  done : HashSet Address

namespace Wave

variable {e : Extent}

def start (s : Sheet e) (origin : Address) (report : Report) : Wave e :=
  let affected := s.downstream origin
  let members := HashSet.ofList affected
  let counts := affected.map fun a => (a, (s.parents a).countP members.contains)
  { sheet := s
    report
    ready := (counts.filter (·.2 = 0)).map Prod.fst
    held := affected
    waiting := HashMap.ofList (counts.filter (·.2 ≠ 0))
    dirty := HashSet.ofList (s.children origin)
    done := ∅ }

/-- A parent of `a` has changed. If `a` has had its turn already, it gets another one. -/
def mark (w : Wave e) (a : Address) : Wave e :=
  if w.dirty.contains a then w
  else
    { w with
      dirty := w.dirty.insert a
      ready := if w.done.contains a then a :: w.ready else w.ready }

def countDown (w : Wave e) (a : Address) : Wave e :=
  match w.waiting[a]? with
  | none => w
  | some n =>
    if n ≤ 1 then { w with waiting := w.waiting.erase a, ready := a :: w.ready }
    else { w with waiting := w.waiting.insert a (n - 1) }

def refresh (w : Wave e) (a : Address) : Wave e :=
  if w.dirty.contains a then
    let (sheet, report, changed) := w.sheet.recompute a w.report
    let w := { w with sheet, report, dirty := w.dirty.erase a }
    if changed then (sheet.children a).foldl mark w else w
  else w

/-- The turn of a cell. Its children are told only of the first one. -/
def visit (w : Wave e) (a : Address) : Wave e :=
  let w := w.refresh a
  if w.done.contains a then w
  else (w.sheet.children a).foldl countDown { w with done := w.done.insert a }

/-- One turn or, if no cell is ready, the release of the first one that still waits. -/
def step (w : Wave e) : Option (Wave e) :=
  match w.ready with
  | a :: ready => some ({ w with ready }.visit a)
  | [] =>
    match w.held.dropWhile fun a => !w.waiting.contains a with
    | [] => none
    | a :: held => some { w with ready := [a], held, waiting := w.waiting.erase a }

def run : Nat → Wave e → Wave e
  | 0, w => w
  | n + 1, w =>
    match w.step with
    | none => w
    | some w => w.run n

/-- As many steps as a wave can have: for each cell that takes part a release and a first turn,
and for each link between them another turn. -/
def budget (w : Wave e) : Nat :=
  w.held.foldr (fun a n => (w.sheet.children a).length + 2 + n) 0

end Wave

def Sheet.propagate {e : Extent} (s : Sheet e) (origin : Address) (report : Report) :
    Sheet e × Report :=
  let w := Wave.start s origin report
  let w := w.run w.budget
  (w.sheet, w.report)

inductive Edit where
  | typed (text : String)
  | value (v : Value)
  | formula (f : Formula)

namespace Sheet

variable {e : Extent}

def follow (a : Address) : Sheet e × Report × Bool → Sheet e × Report
  | (s, r, changed) => if changed then s.propagate a r else (s, r)

def setValue (s : Sheet e) (a : Address) (v : Value) : Except PlaceError (Sheet e × Report) := do
  e.check a
  let s := (s.relink a []).modify a fun c => { c with formula := none }
  return follow a (s.store a v.storable {})

def setTyped (s : Sheet e) (a : Address) (text : String) :
    Except PlaceError (Sheet e × Report) :=
  s.setValue a (.ofTyped text)

/-- Gives the cell a formula. One that closes a cycle is accepted like any other. -/
def setFormula (s : Sheet e) (a : Address) (f : Formula) :
    Except PlaceError (Sheet e × Report) := do
  e.check a
  let parents := f.references
  parents.forM e.check
  let s := (s.relink a parents).modify a fun c => { c with formula := some f }
  return follow a (s.settle a f {})

def edit (s : Sheet e) (a : Address) : Edit → Except PlaceError (Sheet e × Report)
  | .typed text => s.setTyped a text
  | .value v => s.setValue a v
  | .formula f => s.setFormula a f

end Sheet

end ReactiveSheet
