import ReactiveSheet.Address

/-!
Rectangles of cells, and the extent of a sheet.

A rectangle is given by two corners as they were written. It has cells only if the first corner is
the top-left one; a walk visits them row by row and knows at every step how many are left. An extent
has at least one row and one column and at most `maxRows` and `maxCols`; its cells are numbered row
by row, and `position` and `place` go from an address to its number and back.
-/

namespace ReactiveSheet

structure Rectangle where
  first : Address
  last : Address
  deriving DecidableEq, Repr

namespace Rectangle

def Ordered (r : Rectangle) : Prop := r.first.row ≤ r.last.row ∧ r.first.col ≤ r.last.col

instance (r : Rectangle) : Decidable r.Ordered := inferInstanceAs (Decidable (_ ∧ _))

def size (r : Rectangle) : Nat :=
  if r.Ordered then
    (r.last.row - r.first.row + 1) * (r.last.col - r.first.col + 1)
  else 0

/-- The place visited after `a`: the next in its row, or else the first of the next row. -/
def after (r : Rectangle) (a : Address) : Address :=
  if a.col < r.last.col then ⟨a.row, a.col + 1⟩ else ⟨a.row + 1, r.first.col⟩

def visit (r : Rectangle) : Nat → Address → List Address → List Address
  | 0, _, seen => seen.reverse
  | n + 1, a, seen => r.visit n (r.after a) (a :: seen)

theorem visit_eq (r : Rectangle) (n : Nat) (a : Address) (seen : List Address) :
    r.visit n a seen = seen.reverse ++ r.visit n a [] := by
  induction n generalizing a seen with
  | zero => simp [visit]
  | succ n ih =>
    rw [visit, visit, ih, ih _ [a]]
    simp

theorem length_visit (r : Rectangle) (n : Nat) (a : Address) : (r.visit n a []).length = n := by
  induction n generalizing a with
  | zero => rfl
  | succ n ih => rw [visit, visit_eq, List.length_append, ih]; simp; omega

end Rectangle

structure Walk where
  area : Rectangle
  place : Address
  remaining : Nat
  deriving DecidableEq, Repr

namespace Walk

def next? (w : Walk) : Option (Address × Walk) :=
  match w.remaining with
  | 0 => none
  | n + 1 => some (w.place, { w with place := w.area.after w.place, remaining := n })

def toList (w : Walk) : List Address := w.area.visit w.remaining w.place []

theorem toList_of_next? {w rest : Walk} {a : Address} (h : w.next? = some (a, rest)) :
    w.toList = a :: rest.toList := by
  obtain ⟨area, place, remaining⟩ := w
  cases remaining with
  | zero => simp [next?] at h
  | succ n =>
    simp only [next?, Option.some.injEq, Prod.mk.injEq] at h
    obtain ⟨rfl, rfl⟩ := h
    rw [toList, Rectangle.visit, Rectangle.visit_eq]
    rfl

theorem length_toList (w : Walk) : w.toList.length = w.remaining :=
  Rectangle.length_visit w.area w.remaining w.place

end Walk

def Rectangle.walk (r : Rectangle) : Walk := ⟨r, r.first, r.size⟩

def Rectangle.cells (r : Rectangle) : List Address := r.walk.toList

structure Extent where
  rows : Nat
  cols : Nat
  rows_pos : 0 < rows
  rows_le : rows ≤ maxRows
  cols_pos : 0 < cols
  cols_le : cols ≤ maxCols

structure ExtentError where
  rows : Nat
  cols : Nat
  deriving DecidableEq, Repr

def ExtentError.message (err : ExtentError) : String :=
  s!"Invalid grid dimensions: {err.rows} rows x {err.cols} columns"

namespace Extent

def of (rows cols : Nat) : Except ExtentError Extent :=
  if h : (0 < rows ∧ rows ≤ maxRows) ∧ 0 < cols ∧ cols ≤ maxCols then
    .ok ⟨rows, cols, h.1.1, h.1.2, h.2.1, h.2.2⟩
  else .error ⟨rows, cols⟩

instance : Membership Address Extent := ⟨fun e a => a.row < e.rows ∧ a.col < e.cols⟩

theorem mem_iff {e : Extent} {a : Address} : a ∈ e ↔ a.row < e.rows ∧ a.col < e.cols := Iff.rfl

instance (e : Extent) (a : Address) : Decidable (a ∈ e) := decidable_of_iff _ mem_iff.symm

def area (e : Extent) : Nat := e.rows * e.cols

/-- What is wrong with an address that lies outside; the row is named first. -/
def objection (e : Extent) (a : Address) : PlaceError :=
  if e.rows ≤ a.row then .rowOutside a.row (e.rows - 1) else .columnOutside a.col (e.cols - 1)

def check (e : Extent) (a : Address) : Except PlaceError Unit :=
  if a ∈ e then .ok () else .error (e.objection a)

def cellsBetween (e : Extent) (a b : Address) : Except PlaceError (List Address) := do
  e.check a
  e.check b
  let r : Rectangle := ⟨a, b⟩
  if r.Ordered then .ok r.cells else .error (.notCorners a b)

def position (e : Extent) (a : Address) : Nat := a.row * e.cols + a.col

def place (e : Extent) (i : Nat) : Address := ⟨i / e.cols, i % e.cols⟩

theorem position_lt {e : Extent} {a : Address} (h : a ∈ e) : e.position a < e.area := by
  obtain ⟨hr, hc⟩ := mem_iff.mp h
  have : (a.row + 1) * e.cols ≤ e.rows * e.cols := Nat.mul_le_mul_right _ hr
  unfold position area
  rw [Nat.add_mul] at this
  omega

theorem place_position {e : Extent} {a : Address} (h : a ∈ e) : e.place (e.position a) = a := by
  obtain ⟨hr, hc⟩ := mem_iff.mp h
  obtain ⟨row, col⟩ := a
  simp only [place, position, Address.mk.injEq]
  constructor
  · rw [Nat.mul_comm, Nat.mul_add_div e.cols_pos, Nat.div_eq_of_lt hc, Nat.add_zero]
  · rw [Nat.mul_comm, Nat.mul_add_mod, Nat.mod_eq_of_lt hc]

theorem position_inj {e : Extent} {a b : Address} (ha : a ∈ e) (hb : b ∈ e)
    (h : e.position a = e.position b) : a = b := by
  rw [← place_position ha, ← place_position hb, h]

theorem place_mem {e : Extent} {i : Nat} (h : i < e.area) : e.place i ∈ e :=
  mem_iff.mpr ⟨Nat.div_lt_of_lt_mul (by rw [Nat.mul_comm]; exact h), Nat.mod_lt _ e.cols_pos⟩

theorem position_place (e : Extent) (i : Nat) : e.position (e.place i) = i := by
  simp only [position, place]
  rw [Nat.mul_comm]
  exact Nat.div_add_mod i e.cols

end Extent

end ReactiveSheet
