import ReactiveSheet.Sheet.Extent

/-!
The walk through a rectangle stays in it, and goes through it row by row.

A walk that starts inside and has no more steps than there are places left, counted row by row, is
inside at every step. Each step goes to a later address, so a walk visits no cell twice and visits
them in ascending order; what is still to come after some steps is the rest of the list of cells.
-/

namespace ReactiveSheet

namespace Rectangle

variable {r : Rectangle} {a b : Address}

structure Covers (r : Rectangle) (a : Address) : Prop where
  row_ge : r.first.row ≤ a.row
  row_le : a.row ≤ r.last.row
  col_ge : r.first.col ≤ a.col
  col_le : a.col ≤ r.last.col

/-- How many places there are from an address on: those of the rows below it, and of its own. -/
def left (r : Rectangle) (a : Address) : Nat :=
  (r.last.row - a.row) * (r.last.col - r.first.col + 1) + (r.last.col - a.col + 1)

theorem visit_succ (r : Rectangle) (n : Nat) (a : Address) :
    r.visit (n + 1) a [] = a :: r.visit n (r.after a) [] := by
  rw [visit, visit_eq]
  rfl

theorem Covers.after (h : r.Covers a) (more : 1 < r.left a) :
    r.Covers (r.after a) ∧ r.left a = r.left (r.after a) + 1 := by
  obtain ⟨row_ge, row_le, col_ge, col_le⟩ := h
  unfold left at more
  unfold Rectangle.after left
  split
  · rename_i inRow
    exact ⟨⟨row_ge, row_le, Nat.le_succ_of_le col_ge, inRow⟩, by dsimp only; omega⟩
  · rename_i atEnd
    have below : a.row < r.last.row := by
      rcases Nat.lt_or_ge a.row r.last.row with lt | ge
      · exact lt
      · rw [Nat.sub_eq_zero_of_le ge, Nat.zero_mul] at more
        omega
    obtain ⟨k, hk⟩ := Nat.exists_eq_add_of_lt below
    refine ⟨⟨Nat.le_succ_of_le row_ge, below, Nat.le_refl _, Nat.le_trans col_ge col_le⟩, ?_⟩
    have here : r.last.row - a.row = k + 1 := by omega
    have there : r.last.row - (a.row + 1) = k := by omega
    dsimp only
    rw [here, there, Nat.succ_mul]
    omega

theorem Covers.of_mem_visit {n : Nat} (h : r.Covers a) (room : n ≤ r.left a)
    (hb : b ∈ r.visit n a []) : r.Covers b := by
  induction n generalizing a with
  | zero => exact absurd hb List.not_mem_nil
  | succ n ih =>
    rw [visit_succ] at hb
    rcases List.mem_cons.mp hb with rfl | later
    · exact h
    · cases n with
      | zero => exact absurd later List.not_mem_nil
      | succ n =>
        obtain ⟨inside, fewer⟩ := h.after (by omega)
        exact ih inside (by omega) later

theorem covers_of_mem_cells (h : r.Ordered) (hb : b ∈ r.cells) : r.Covers b := by
  obtain ⟨rows, cols⟩ := h
  have start : r.Covers r.first := ⟨Nat.le_refl _, rows, Nat.le_refl _, cols⟩
  have size : r.size = r.left r.first := by
    rw [Rectangle.size, if_pos ⟨rows, cols⟩, left, Nat.succ_mul]
  exact start.of_mem_visit (Nat.le_of_eq size) hb

/-- The cells between two corners, row by row and within each row from left to right. -/
def rowByRow (r : Rectangle) : List Address :=
  (List.range' r.first.row (r.last.row + 1 - r.first.row)).flatMap fun row =>
    (List.range' r.first.col (r.last.col + 1 - r.first.col)).map fun col => ⟨row, col⟩

/-- From any place in a row the walk goes on to its end, and then to the start of the next row. -/
theorem visit_row (r : Rectangle) (n row col width : Nat) (h : col + width = r.last.col) :
    r.visit (width + 1 + n) ⟨row, col⟩ [] =
      (List.range' col (width + 1)).map (fun col => ⟨row, col⟩) ++
        r.visit n ⟨row + 1, r.first.col⟩ [] := by
  induction width generalizing col with
  | zero =>
    have last : ¬ col < r.last.col := by omega
    rw [Nat.zero_add, Nat.add_comm, visit_succ, after, if_neg last]
    rfl
  | succ width ih =>
    have next := ih (col + 1) (by omega)
    have inRow : col < r.last.col := by omega
    rw [show width + 1 + 1 + n = width + 1 + n + 1 by omega, visit_succ, after, if_pos inRow, next]
    rfl

theorem visit_rows (r : Rectangle) (h : r.first.col ≤ r.last.col) (rows row : Nat) :
    r.visit (rows * (r.last.col - r.first.col + 1)) ⟨row, r.first.col⟩ [] =
      (List.range' row rows).flatMap fun row =>
        (List.range' r.first.col (r.last.col - r.first.col + 1)).map fun col => ⟨row, col⟩ := by
  induction rows generalizing row with
  | zero =>
    rw [Nat.zero_mul]
    rfl
  | succ rows ih =>
    have first := r.visit_row (rows * (r.last.col - r.first.col + 1)) row r.first.col
      (r.last.col - r.first.col) (by omega)
    rw [Nat.succ_mul, Nat.add_comm, first, ih]
    rfl

theorem cells_eq_rowByRow (h : r.Ordered) : r.cells = r.rowByRow := by
  obtain ⟨rows, cols⟩ := h
  have size : r.size = (r.last.row - r.first.row + 1) * (r.last.col - r.first.col + 1) :=
    if_pos ⟨rows, cols⟩
  have height : r.last.row + 1 - r.first.row = r.last.row - r.first.row + 1 := by omega
  have width : r.last.col + 1 - r.first.col = r.last.col - r.first.col + 1 := by omega
  rw [rowByRow, height, width, ← visit_rows r cols, ← size]
  rfl

end Rectangle

namespace Extent

theorem of_check_bind (e : Extent) {α : Type} {a : Address} {k : Unit → Except PlaceError α} {x : α}
    (h : (e.check a >>= k) = .ok x) : a ∈ e ∧ k () = .ok x := by
  unfold check at h
  split at h
  · rename_i ha
    exact ⟨ha, h⟩
  · exact nomatch h

theorem cellsBetween_eq_ok_iff {e : Extent} {a b : Address} {cells : List Address} :
    e.cellsBetween a b = .ok cells ↔
      a ∈ e ∧ b ∈ e ∧ (Rectangle.mk a b).Ordered ∧ (Rectangle.mk a b).rowByRow = cells := by
  constructor
  · intro h
    obtain ⟨ha, h⟩ := e.of_check_bind h
    obtain ⟨hb, h⟩ := e.of_check_bind h
    dsimp only at h
    split at h
    · rename_i ordered
      obtain rfl := Except.ok.inj h
      exact ⟨ha, hb, ordered, (Rectangle.cells_eq_rowByRow ordered).symm⟩
    · exact nomatch h
  · rintro ⟨ha, hb, ordered, rfl⟩
    rw [cellsBetween, check, if_pos ha, check, if_pos hb, ← Rectangle.cells_eq_rowByRow ordered]
    exact if_pos ordered

theorem mem_of_mem_cellsBetween {e : Extent} {a b c : Address} {cells : List Address}
    (h : e.cellsBetween a b = .ok cells) (hc : c ∈ cells) : c ∈ e := by
  obtain ⟨-, hb, ordered, rfl⟩ := cellsBetween_eq_ok_iff.mp h
  obtain ⟨lastRow, lastCol⟩ := mem_iff.mp hb
  rw [← Rectangle.cells_eq_rowByRow ordered] at hc
  have inside := Rectangle.covers_of_mem_cells ordered hc
  exact mem_iff.mpr ⟨Nat.lt_of_le_of_lt inside.row_le lastRow,
    Nat.lt_of_le_of_lt inside.col_le lastCol⟩

end Extent

namespace Rectangle

variable {r : Rectangle} {a b : Address}

theorem lt_after (r : Rectangle) (a : Address) : a < r.after a := by
  unfold after
  rw [Address.lt_iff]
  by_cases inRow : a.col < r.last.col
  · rw [if_pos inRow]
    dsimp only
    omega
  · rw [if_neg inRow]
    dsimp only
    omega

theorem eq_or_lt_of_mem_visit {n : Nat} (h : b ∈ r.visit n a []) : b = a ∨ a < b := by
  induction n generalizing a with
  | zero => exact absurd h List.not_mem_nil
  | succ n ih =>
    rw [visit_succ] at h
    rcases List.mem_cons.mp h with rfl | later
    · exact Or.inl rfl
    · have next := r.lt_after a
      rcases ih later with rfl | further
      · exact Or.inr next
      · exact Or.inr (Address.lt_trans next further)

theorem ascending_visit (r : Rectangle) (n : Nat) (a : Address) :
    (r.visit n a []).Pairwise (· < ·) := by
  induction n generalizing a with
  | zero => exact List.Pairwise.nil
  | succ n ih =>
    rw [visit_succ]
    refine List.pairwise_cons.mpr ⟨fun b later => ?_, ih (r.after a)⟩
    have next := r.lt_after a
    rcases eq_or_lt_of_mem_visit later with rfl | further
    · exact next
    · exact Address.lt_trans next further

theorem ascending_cells (r : Rectangle) : r.cells.Pairwise (· < ·) :=
  r.ascending_visit r.size r.first

theorem length_cells (r : Rectangle) : r.cells.length = r.size := r.walk.length_toList

theorem Covers.mem_rowByRow (h : r.Covers a) : a ∈ r.rowByRow := by
  obtain ⟨row_ge, row_le, col_ge, col_le⟩ := h
  refine List.mem_flatMap.mpr ⟨a.row, List.mem_range'_1.mpr (by omega), ?_⟩
  exact List.mem_map.mpr ⟨a.col, List.mem_range'_1.mpr (by omega), rfl⟩

theorem mem_cells_iff (h : r.Ordered) : a ∈ r.cells ↔ r.Covers a :=
  ⟨covers_of_mem_cells h, fun inside => cells_eq_rowByRow h ▸ inside.mem_rowByRow⟩

end Rectangle

namespace Walk

variable {w w' : Walk} {seen coming : List Address}

/-- Some steps of a walk: the cells that they visit, and the walk that is left. -/
inductive Steps : Walk → List Address → Walk → Prop where
  | none (w : Walk) : Steps w [] w
  | next {w w' w'' : Walk} {a : Address} {seen : List Address} (step : w.next? = some (a, w'))
      (others : Steps w' seen w'') : Steps w (a :: seen) w''

def Runs (w : Walk) (coming : List Address) : Prop :=
  ∃ last, w.Steps coming last ∧ last.next? = none

theorem Steps.toList_eq (h : w.Steps seen w') : w.toList = seen ++ w'.toList := by
  induction h with
  | none w => rfl
  | next step _ ih => rw [toList_of_next? step, ih, List.cons_append]

theorem next?_eq_none_iff : w.next? = none ↔ w.remaining = 0 := by
  unfold next?
  cases h : w.remaining <;> simp

theorem runs_toList (w : Walk) : w.Runs w.toList := by
  obtain ⟨r, a, n⟩ := w
  induction n generalizing a with
  | zero => exact ⟨_, .none _, rfl⟩
  | succ n ih =>
    have step : (Walk.mk r a (n + 1)).next? = some (a, ⟨r, r.after a, n⟩) := rfl
    obtain ⟨last, others, done⟩ := ih (r.after a)
    rw [toList_of_next? step]
    exact ⟨last, .next step others, done⟩

theorem Runs.eq_toList (h : w.Runs coming) : coming = w.toList := by
  obtain ⟨last, steps, done⟩ := h
  have empty : last.toList = [] :=
    List.eq_nil_of_length_eq_zero (last.length_toList.trans (next?_eq_none_iff.mp done))
  rw [steps.toList_eq, empty, List.append_nil]

end Walk

/-- There are cells between two addresses exactly if both lie inside and the first is the top-left
corner of the second. They are all the addresses between the corners, in ascending order and as
many as the rectangle has. Whatever steps a walk through them has made, it ends after the others,
and knows how many they are. -/
theorem Extent.cells_between_corners (e : Extent) (a b : Address) :
    let r : Rectangle := ⟨a, b⟩
    ((∃ cells, e.cellsBetween a b = .ok cells) ↔
      a ∈ e ∧ b ∈ e ∧ a.row ≤ b.row ∧ a.col ≤ b.col) ∧
    ∀ cells, e.cellsBetween a b = .ok cells →
      cells.Pairwise (· < ·) ∧ cells.Nodup ∧
      (∀ c, c ∈ cells ↔ a.row ≤ c.row ∧ c.row ≤ b.row ∧ a.col ≤ c.col ∧ c.col ≤ b.col) ∧
      cells.length = r.size ∧
      ∀ seen w, r.walk.Steps seen w → (∃ coming, w.Runs coming) ∧
        ∀ coming, w.Runs coming → seen ++ coming = cells ∧ w.remaining = coming.length := by
  intro r
  constructor
  · constructor
    · rintro ⟨cells, h⟩
      obtain ⟨ha, hb, ordered, -⟩ := cellsBetween_eq_ok_iff.mp h
      exact ⟨ha, hb, ordered⟩
    · rintro ⟨ha, hb, ordered⟩
      exact ⟨_, cellsBetween_eq_ok_iff.mpr ⟨ha, hb, ordered, rfl⟩⟩
  · intro cells h
    obtain ⟨-, -, ordered, walked⟩ := cellsBetween_eq_ok_iff.mp h
    obtain rfl : r.cells = cells := (Rectangle.cells_eq_rowByRow ordered).trans walked
    refine ⟨r.ascending_cells, Address.nodup_of_ascending r.ascending_cells, fun c => ?_,
      r.length_cells, fun seen w steps => ?_⟩
    · rw [Rectangle.mem_cells_iff ordered]
      exact ⟨fun ⟨above, below, left, right⟩ => ⟨above, below, left, right⟩,
        fun ⟨above, below, left, right⟩ => ⟨above, below, left, right⟩⟩
    · refine ⟨⟨w.toList, w.runs_toList⟩, fun coming runs => ?_⟩
      rw [runs.eq_toList]
      exact ⟨steps.toList_eq.symm, w.length_toList.symm⟩

end ReactiveSheet
