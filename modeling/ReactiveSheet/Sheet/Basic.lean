import ReactiveSheet.Formula.Printer
import ReactiveSheet.Sheet.Extent

/-!
Sheets and snapshots of them.

The parents of a cell are the cells that its formula reads, and its children are the cells whose
formulas read it. Both are kept as ascending lists of addresses. A cell is looked up by its
address, and a change is the replacement of one cell; `cell?_modify` says what is seen after it.

A snapshot keeps the values of one moment in one sequence, row by row. A single value, a row and the
sequence of all rows are found in it in ways of their own: by a position, by where the row begins
and ends, and by cutting the sequence into pieces as long as a row.
-/

namespace ReactiveSheet

structure Cell where
  address : Address
  value : Value
  formula : Option Formula
  parents : List Address
  children : List Address

namespace Cell

def blank (a : Address) : Cell := ⟨a, .empty, none, [], []⟩

def hasFormula (c : Cell) : Bool := c.formula.isSome

def isLinked (c : Cell) : Bool := !c.parents.isEmpty || !c.children.isEmpty

end Cell

structure Sheet (e : Extent) where
  cells : Vector Cell e.area

namespace Sheet

variable {e : Extent}

def blank (e : Extent) : Sheet e := ⟨Vector.ofFn fun i => Cell.blank (e.place i)⟩

def get (s : Sheet e) (a : Address) (h : a ∈ e) : Cell :=
  have lt := Extent.position_lt h
  s.cells[e.position a]

def cell? (s : Sheet e) (a : Address) : Option Cell :=
  if h : a ∈ e then some (s.get a h) else none

def cell (s : Sheet e) (a : Address) : Except PlaceError Cell :=
  if h : a ∈ e then .ok (s.get a h)
  else .error (e.objection a)

def modify (s : Sheet e) (a : Address) (f : Cell → Cell) : Sheet e :=
  if h : a ∈ e then
    have lt := Extent.position_lt h
    ⟨s.cells.set (e.position a) (f (s.get a h)) lt⟩
  else s

def toList (s : Sheet e) : List Cell := s.cells.toList

def linkedCells (s : Sheet e) : List Cell := s.toList.filter fun c => c.hasFormula || c.isLinked

def value? (s : Sheet e) (a : Address) : Option Value := (s.cell? a).map Cell.value

def formula? (s : Sheet e) (a : Address) : Option Formula := (s.cell? a).bind Cell.formula

def parents (s : Sheet e) (a : Address) : List Address :=
  match s.cell? a with
  | some c => c.parents
  | none => []

def children (s : Sheet e) (a : Address) : List Address :=
  match s.cell? a with
  | some c => c.children
  | none => []

theorem cell?_of_mem {s : Sheet e} {a : Address} (h : a ∈ e) :
    s.cell? a = some (s.get a h) := dif_pos h

theorem cell?_of_not_mem {s : Sheet e} {a : Address} (h : a ∉ e) : s.cell? a = none := dif_neg h

theorem isSome_cell? {s : Sheet e} {a : Address} : (s.cell? a).isSome = true ↔ a ∈ e := by
  by_cases h : a ∈ e
  · simp [cell?_of_mem h, h]
  · simp [cell?_of_not_mem h, h]

theorem cell?_modify (s : Sheet e) (a b : Address) (f : Cell → Cell) :
    (s.modify a f).cell? b = if b = a then (s.cell? b).map f else s.cell? b := by
  by_cases ha : a ∈ e
  · by_cases hb : b ∈ e
    · rw [cell?_of_mem hb, cell?_of_mem hb]
      by_cases hab : b = a
      · subst hab
        simp [modify, ha, get]
      · have : e.position a ≠ e.position b := fun h => hab (Extent.position_inj hb ha h.symm)
        simp [modify, ha, hab, get, Vector.getElem_set_ne _ _ this]
    · simp [cell?_of_not_mem hb]
  · have hs : s.modify a f = s := dif_neg ha
    rw [hs]
    by_cases hab : b = a
    · subst hab
      simp [cell?_of_not_mem ha]
    · simp [hab]

theorem value?_modify (s : Sheet e) (a b : Address) (f : Cell → Cell) :
    (s.modify a f).value? b =
      if b = a then (s.cell? b).map fun c => (f c).value else s.value? b := by
  rw [value?, cell?_modify]
  split
  · rw [Option.map_map]
    rfl
  · rfl

theorem formula?_modify (s : Sheet e) (a b : Address) (f : Cell → Cell) :
    (s.modify a f).formula? b =
      if b = a then (s.cell? b).bind fun c => (f c).formula else s.formula? b := by
  rw [formula?, cell?_modify]
  split
  · cases s.cell? b <;> rfl
  · rfl

theorem parents_eq (s : Sheet e) (a : Address) :
    s.parents a = ((s.cell? a).map Cell.parents).getD [] := by
  unfold parents
  cases s.cell? a <;> rfl

theorem children_eq (s : Sheet e) (a : Address) :
    s.children a = ((s.cell? a).map Cell.children).getD [] := by
  unfold children
  cases s.cell? a <;> rfl

theorem parents_modify (s : Sheet e) (a b : Address) (f : Cell → Cell) :
    (s.modify a f).parents b =
      if b = a then ((s.cell? b).map fun c => (f c).parents).getD [] else s.parents b := by
  rw [parents_eq, parents_eq, cell?_modify]
  split
  · rw [Option.map_map]
    rfl
  · rfl

theorem children_modify (s : Sheet e) (a b : Address) (f : Cell → Cell) :
    (s.modify a f).children b =
      if b = a then ((s.cell? b).map fun c => (f c).children).getD [] else s.children b := by
  rw [children_eq, children_eq, cell?_modify]
  split
  · rw [Option.map_map]
    rfl
  · rfl

theorem isSome_value? {s : Sheet e} {a : Address} : (s.value? a).isSome = true ↔ a ∈ e := by
  rw [value?, Option.isSome_map, isSome_cell?]

theorem formula?_of_not_mem {s : Sheet e} {a : Address} (h : a ∉ e) : s.formula? a = none := by
  rw [formula?, cell?_of_not_mem h]
  rfl

theorem parents_of_not_mem {s : Sheet e} {a : Address} (h : a ∉ e) : s.parents a = [] := by
  rw [parents, cell?_of_not_mem h]

theorem children_of_not_mem {s : Sheet e} {a : Address} (h : a ∉ e) : s.children a = [] := by
  rw [children, cell?_of_not_mem h]

theorem cell?_blank {a : Address} (h : a ∈ e) : (blank e).cell? a = some (Cell.blank a) := by
  simp [cell?_of_mem h, get, blank, Extent.place_position h]

theorem value?_blank {a : Address} (h : a ∈ e) : (blank e).value? a = some .empty := by
  rw [value?, cell?_blank h]
  rfl

@[simp] theorem formula?_blank (a : Address) : (blank e).formula? a = none := by
  by_cases h : a ∈ e
  · rw [formula?, cell?_blank h]
    rfl
  · exact formula?_of_not_mem h

@[simp] theorem parents_blank (a : Address) : (blank e).parents a = [] := by
  by_cases h : a ∈ e
  · rw [parents, cell?_blank h]
    rfl
  · exact parents_of_not_mem h

@[simp] theorem children_blank (a : Address) : (blank e).children a = [] := by
  by_cases h : a ∈ e
  · rw [children, cell?_blank h]
    rfl
  · exact children_of_not_mem h

end Sheet

structure Snapshot (e : Extent) where
  values : Vector Value e.area

namespace Snapshot

variable {e : Extent}

instance : BEq (Snapshot e) := ⟨fun a b => a.values == b.values⟩

def get? (p : Snapshot e) (a : Address) : Option Value :=
  if a ∈ e then p.values[e.position a]? else none

def row (p : Snapshot e) (row : Nat) : List Value :=
  (p.values.toArray.extract (row * e.cols) (row * e.cols + e.cols)).toList

/-- A row, if there is one of that number and it ends where the values end or before. -/
def row? (p : Snapshot e) (row : Nat) : Option (List Value) :=
  if row < e.rows ∧ row * e.cols + e.cols ≤ e.area then some (p.row row) else none

/-- A list in pieces of `n`, only the last of which may be shorter. No piece is empty. -/
def chunks {α : Type} (n : Nat) : List α → List (List α)
  | [] => []
  | x :: l => (x :: l.take (n - 1)) :: chunks n (l.drop (n - 1))
termination_by l => l.length
decreasing_by exact Nat.lt_succ_of_le (l.length_drop ▸ Nat.sub_le _ _)

def rows (p : Snapshot e) : List (List Value) := chunks e.cols p.values.toList

end Snapshot

def Sheet.snapshot {e : Extent} (s : Sheet e) : Snapshot e := ⟨s.cells.map Cell.value⟩

end ReactiveSheet
