import Mathlib.Data.List.Basic
import ReactiveSheet.Proofs.Sheet.Lines

/-!
All views of a sheet agree.

Whatever is done to a sheet comes down to replacing single cells, and a cell is only ever replaced
by one that reports the same address. So the cells keep their order, and the cell that is found by
its address, the value that a formula sees and what a snapshot shows are the same. A row of a
snapshot is what lies between two positions, and all rows are the values in pieces as long as a
row.
-/

namespace ReactiveSheet

namespace Extent

variable {e : Extent}

theorem place_of_lt {col : Nat} (h : col < e.cols) (row : Nat) :
    e.place (row * e.cols + col) = ⟨row, col⟩ := by
  rw [place, Nat.mul_comm, Nat.mul_add_div e.cols_pos, Nat.mul_add_mod, Nat.div_eq_of_lt h,
    Nat.mod_eq_of_lt h, Nat.add_zero]

theorem map_place_range (e : Extent) (rows : Nat) :
    (List.range (rows * e.cols)).map e.place =
      (List.range rows).flatMap fun row => (List.range e.cols).map fun col => ⟨row, col⟩ := by
  induction rows with
  | zero => rw [Nat.zero_mul]; rfl
  | succ rows ih =>
    have last : ((List.range e.cols).map (rows * e.cols + ·)).map e.place =
        (List.range e.cols).map fun col => ⟨rows, col⟩ := by
      rw [List.map_map]
      exact List.map_congr_left fun col hcol => place_of_lt (List.mem_range.mp hcol) rows
    rw [Nat.succ_mul, List.range_add, List.map_append, ih, last, List.range_succ,
      List.flatMap_append, List.flatMap_singleton]

theorem row_end_le {row : Nat} (h : row < e.rows) : row * e.cols + e.cols ≤ e.area := by
  rw [← Nat.succ_mul]
  exact Nat.mul_le_mul_right _ h

end Extent

variable {e : Extent}

namespace Snapshot

variable {α : Type}

/-- A list as long as `count` pieces of `n` has these pieces. -/
theorem chunks_eq {n : Nat} (positive : 0 < n) (count : Nat) {l : List α}
    (long : l.length = count * n) :
    chunks n l = (List.range count).map fun i => (l.drop (i * n)).take n := by
  induction count generalizing l with
  | zero =>
    obtain rfl : l = [] := List.length_eq_zero_iff.mp (long.trans (Nat.zero_mul n))
    rw [chunks]
    rfl
  | succ count ih =>
    rw [Nat.succ_mul] at long
    obtain ⟨n, rfl⟩ := Nat.exists_eq_succ_of_ne_zero (Nat.ne_of_gt positive)
    cases l with
    | nil => exact absurd long (by simp)
    | cons x l =>
      have rest : (l.drop n).length = count * n.succ := by
        rw [List.length_drop]
        simp only [List.length_cons] at long
        omega
      rw [chunks, Nat.succ_sub_one, ih rest, List.range_succ_eq_map, List.map_cons, List.map_map]
      congr 1
      · rw [Nat.zero_mul, List.drop_zero, List.take_succ_cons]
      · refine List.map_congr_left fun i _ => ?_
        rw [Function.comp_apply, Nat.succ_mul, Nat.add_comm, ← List.drop_drop,
          List.drop_succ_cons]

theorem row_eq (p : Snapshot e) (row : Nat) :
    p.row row = (p.values.toList.drop (row * e.cols)).take e.cols := by
  rw [Snapshot.row, Array.toList_extract, List.extract_eq_take_drop, Nat.add_sub_cancel_left]
  rfl

theorem rows_eq (p : Snapshot e) : p.rows = (List.range e.rows).map p.row := by
  have long : p.values.toList.length = e.rows * e.cols := Vector.length_toList
  rw [rows, chunks_eq e.cols_pos e.rows long]
  exact List.map_congr_left fun row _ => (p.row_eq row).symm

theorem row?_eq (p : Snapshot e) (row : Nat) :
    p.row? row = if row < e.rows then some (p.row row) else none :=
  if_congr (and_iff_left_of_imp Extent.row_end_le) rfl rfl

theorem isSome_row? {p : Snapshot e} {row : Nat} : (p.row? row).isSome ↔ row < e.rows := by
  rw [row?_eq, Option.isSome_ite]

theorem row?_eq_some_iff {p : Snapshot e} {row : Nat} {values : List Value} :
    p.row? row = some values ↔ row < e.rows ∧ p.row row = values := by
  rw [row?_eq, Option.ite_none_right_eq_some, Option.some.injEq]

theorem getElem?_rows (p : Snapshot e) (row : Nat) : p.rows[row]? = p.row? row := by
  rw [rows_eq, List.getElem?_map, row?_eq]
  split
  · rename_i inside
    rw [List.getElem?_range inside]
    rfl
  · rename_i outside
    rw [List.getElem?_eq_none (by rwa [List.length_range, ← Nat.not_lt])]
    rfl

end Snapshot

namespace Sheet

theorem get?_snapshot (s : Sheet e) (a : Address) : s.snapshot.get? a = s.value? a := by
  by_cases h : a ∈ e
  · rw [Snapshot.get?, if_pos h, value?, cell?_of_mem h]
    simp [snapshot, get, Extent.position_lt h]
  · rw [Snapshot.get?, if_neg h, value?, cell?_of_not_mem h]
    rfl

theorem map_some_row {s : Sheet e} {row : Nat} (h : row < e.rows) :
    (s.snapshot.row row).map some = (List.range e.cols).map fun col => s.value? ⟨row, col⟩ := by
  have inside := Extent.row_end_le h
  apply List.ext_getElem
  · simp [Snapshot.row]
    omega
  · intro col hrow hcol
    have hc : col < e.cols := by simpa using hcol
    have mem : (⟨row, col⟩ : Address) ∈ e := ⟨h, hc⟩
    simp [Snapshot.row, snapshot, value?, cell?_of_mem mem, get, Extent.position]

theorem length_row {s : Sheet e} {row : Nat} (h : row < e.rows) :
    (s.snapshot.row row).length = e.cols := by
  have values := congrArg List.length (s.map_some_row h)
  rwa [List.length_map, List.length_map, List.length_range] at values

theorem value?_of_mem_row {s : Sheet e} {row : Nat} (h : row < e.rows) {v : Value}
    (hv : v ∈ s.snapshot.row row) : ∃ a, s.value? a = some v := by
  have mem : some v ∈ (s.snapshot.row row).map some := List.mem_map_of_mem hv
  rw [s.map_some_row h] at mem
  obtain ⟨col, -, value⟩ := List.mem_map.mp mem
  exact ⟨_, value⟩

variable {s t u : Sheet e}

/-- A sheet that comes from another one by replacing cells, each by one of the same address. -/
inductive Writes (s : Sheet e) : Sheet e → Prop where
  | none : Writes s s
  | cell {t : Sheet e} (before : Writes s t) (a : Address) {f : Cell → Cell}
      (keeps : ∀ c, (f c).address = c.address) : Writes s (t.modify a f)

theorem Writes.trans (h : Writes s t) (k : Writes t u) : Writes s u := by
  induction k with
  | none => exact h
  | cell _ a keeps ih => exact ih.cell a keeps

theorem writes_foldl {α : Type} {g : Sheet e → α → Sheet e} (each : ∀ s x, Writes s (g s x))
    (l : List α) (s : Sheet e) : Writes s (l.foldl g s) := by
  induction l generalizing s with
  | nil => exact .none
  | cons x l ih => exact (each s x).trans (ih (g s x))

theorem writes_atBothEnds (change : Address → List Address → List Address) (s : Sheet e)
    (child parent : Address) : Writes s (s.atBothEnds change child parent) := by
  have first := Writes.none.cell parent (s := s)
    (f := fun c => { c with children := change child c.children }) fun _ => rfl
  exact first.cell child fun _ => rfl

theorem writes_relink (s : Sheet e) (a : Address) (parents : List Address) :
    Writes s (s.relink a parents) := by
  unfold relink
  split
  · exact (writes_foldl (fun s p => writes_atBothEnds _ s a p) _ s).trans
      (writes_foldl (fun s p => writes_atBothEnds _ s a p) _ _)
  · exact .none

theorem writes_rewire (s : Sheet e) (a : Address) (f : Option Formula) :
    Writes s (s.rewire a f) := (writes_relink s a _).cell a fun _ => rfl

theorem writes_store (s : Sheet e) (a : Address) (v : Value) (r : Report) :
    Writes s (s.store a v r).1 := by
  by_cases same : (s.value? a == some v) = true
  · rw [store_of_beq same]
    exact .none
  · rw [store_of_not_beq same]
    exact Writes.none.cell a (f := fun c => { c with value := v }) fun _ => rfl

theorem writes_recompute (s : Sheet e) (a : Address) (r : Report) :
    Writes s (s.recompute a r).1 := by
  unfold recompute
  split
  · exact .none
  · rw [settle_eq_store]
    exact writes_store s a _ _

end Sheet

namespace Wave

open Sheet (Writes)

variable {w v : Wave e}

theorem sheet_foldl {g : Wave e → Address → Wave e} (same : ∀ w a, (g w a).sheet = w.sheet)
    (l : List Address) (w : Wave e) : (l.foldl g w).sheet = w.sheet := by
  induction l generalizing w with
  | nil => rfl
  | cons a l ih => exact (ih (g w a)).trans (same w a)

theorem writes_refresh (w : Wave e) (a : Address) : Writes w.sheet (w.refresh a).sheet := by
  have recomputed := Sheet.writes_recompute w.sheet a w.report
  unfold refresh
  split
  · dsimp only
    split
    · rw [sheet_foldl fun w a => (marked_mark w a).sheet]
      exact recomputed
    · exact recomputed
  · exact .none

theorem sheet_finish (w : Wave e) (a : Address) : (w.finish a).sheet = w.sheet := by
  unfold finish
  split
  · rfl
  · exact sheet_foldl (fun w a => (countedDown_countDown w a).sheet) _ _

theorem writes_step (h : w.step = some v) : Writes w.sheet v.sheet := by
  cases stepped_of_step h with
  | @turn a ready =>
    rw [sheet_finish]
    exact writes_refresh { w with ready } a
  | release => exact .none

theorem writes_run (n : Nat) (w : Wave e) : Writes w.sheet (w.run n).sheet := by
  induction n generalizing w with
  | zero => exact .none
  | succ n ih =>
    unfold run
    split
    · exact .none
    · rename_i v h
      exact (writes_step h).trans (ih v)

end Wave

namespace Sheet

variable {s t : Sheet e} {a : Address}

theorem writes_follow (a : Address) (x : Sheet e × Report × Bool) :
    Writes x.1 (follow a x).1 := by
  obtain ⟨s, r, changed⟩ := x
  cases changed with
  | true => exact Wave.writes_run _ (Wave.start s a r)
  | false => exact .none

theorem writes_edit {edit : Edit} {r : Report} (h : s.edit a edit = .ok (t, r)) : Writes s t := by
  obtain ⟨-, -, note, -, followed⟩ := edit_eq_follow h
  have stored := (writes_rewire s a edit.formula?).trans
    (writes_store _ a ((s.rewire a edit.formula?).dueBy a edit) note)
  have all := stored.trans (writes_follow a _)
  rwa [followed] at all

theorem writes_perform (s : Sheet e) (history : List (Address × Edit)) :
    Writes s (s.perform history) :=
  perform_preserves .none fun _ _ _ _ _ _ before h => before.trans (writes_edit h)

theorem Writes.address (h : Writes s t) (a : Address) :
    (t.cell? a).map Cell.address = (s.cell? a).map Cell.address := by
  induction h with
  | none => rfl
  | @cell t _ b f keeps ih =>
    rw [← ih, cell?_modify]
    split
    · rw [Option.map_map]
      exact congrArg (fun g => (t.cell? a).map g) (funext keeps)
    · rfl

theorem address_perform (history : List (Address × Edit)) (ha : a ∈ e) :
    (((blank e).perform history).cell? a).map Cell.address = some a := by
  rw [(writes_perform (blank e) history).address, cell?_blank ha]
  rfl

theorem map_some_toList (s : Sheet e) :
    s.toList.map some = (List.range e.area).map fun i => s.cell? (e.place i) := by
  apply List.ext_getElem
  · simp [toList]
  · intro i hi _
    have inside : i < e.area := by simpa [toList] using hi
    simp [toList, cell?_of_mem (Extent.place_mem inside), get, Extent.position_place]

theorem map_address_toList (own : ∀ a ∈ e, (s.cell? a).map Cell.address = some a) :
    s.toList.map Cell.address = (List.range e.area).map e.place := by
  apply List.map_injective_iff.mpr (Option.some_injective Address)
  calc (s.toList.map Cell.address).map some
      = (s.toList.map some).map (Option.map Cell.address) := by
        rw [List.map_map, List.map_map]
        rfl
    _ = (List.range e.area).map fun i => (s.cell? (e.place i)).map Cell.address := by
        rw [map_some_toList, List.map_map]
        rfl
    _ = ((List.range e.area).map e.place).map some := by
        rw [List.map_map]
        exact List.map_congr_left fun i hi => own _ (Extent.place_mem (List.mem_range.mp hi))

theorem cell_eq_ok_iff {c : Cell} : s.cell a = .ok c ↔ s.cell? a = some c := by
  unfold cell cell?
  split
  · rw [Except.ok.injEq, Option.some.injEq]
  · constructor
    · intro failed
      cases failed
    · intro missing
      cases missing

theorem exists_cell_iff : (∃ c, s.cell a = .ok c) ↔ a ∈ e := by
  rw [← isSome_cell? (s := s), Option.isSome_iff_exists]
  exact exists_congr fun c => cell_eq_ok_iff

end Sheet

namespace InPlace

def attempt : List (Address × Edit) → StateM (Sheet e) Unit
  | [] => pure ()
  | (a, edit) :: rest => do
    let _ ← (InPlace.edit a edit).run
    attempt rest

/-- A snapshot is taken, then there are edits, and then the snapshot is looked at. -/
def lookBack (later : List (Address × Edit)) : StateM (Sheet e) (Snapshot e) := do
  let p := (← get).snapshot
  attempt later
  return p

theorem run_attempt (history : List (Address × Edit)) (s : Sheet e) :
    (attempt history).run s = ((), s.perform history) := by
  induction history generalizing s with
  | nil => rfl
  | cons x rest ih =>
    obtain ⟨a, edit⟩ := x
    have one : (InPlace.edit a edit).run.run s = wholly s (s.edit a edit) := atomic_edit s a edit
    rw [attempt, StateT.run_bind, one, Sheet.perform]
    cases s.edit a edit with
    | ok x => exact ih x.1
    | error cause => exact ih s

theorem run_lookBack (later : List (Address × Edit)) (s : Sheet e) :
    (lookBack later).run s = (s.snapshot, s.perform later) := by
  rw [lookBack, StateT.run_bind]
  change ((attempt later).run s >>= fun x => pure (s.snapshot, x.2)) = _
  rw [run_attempt]
  rfl

end InPlace

namespace Sheet

/-- After any edits, the cells stand row by row, each at the address that it reports. The addresses
inside are those at which a cell is found, those at which a formula sees a value, and those at
which a snapshot has one, and it is one value. A snapshot has a row for each row of the sheet,
which has the values of its cells column by column, and the rows one after another are these rows.
And whatever edits follow, in the same sheet, they do not change what the snapshot says. -/
theorem views_agree (e : Extent) (history later : List (Address × Edit)) :
    let s := (blank e).perform history
    let p := s.snapshot
    s.toList.map Cell.address =
        ((List.range e.rows).flatMap fun row => (List.range e.cols).map fun col => ⟨row, col⟩) ∧
      (∀ a c, s.cell a = .ok c → c.address = a ∧ s.value? a = some c.value) ∧
      (∀ a, ((∃ c, s.cell a = .ok c) ↔ a ∈ e) ∧ ((s.value? a).isSome ↔ a ∈ e) ∧
        ((p.get? a).isSome ↔ a ∈ e) ∧ p.get? a = s.value? a) ∧
      (∀ row, ((p.row? row).isSome ↔ row < e.rows) ∧ p.rows[row]? = p.row? row ∧
        ∀ values, p.row? row = some values →
          values.map some = (List.range e.cols).map fun col => p.get? ⟨row, col⟩) ∧
      p.rows.length = e.rows ∧
      (InPlace.lookBack later).run s = (p, s.perform later) := by
  intro s p
  have own : ∀ a ∈ e, (s.cell? a).map Cell.address = some a := fun a => address_perform history
  refine ⟨?order, ?cells, ?values, ?rows, ?count, InPlace.run_lookBack later s⟩
  case order =>
    rw [map_address_toList own]
    exact e.map_place_range e.rows
  case cells =>
    intro a c found
    have stored := cell_eq_ok_iff.mp found
    have reported := own a (exists_cell_iff.mp ⟨c, found⟩)
    rw [stored] at reported
    exact ⟨Option.some.inj reported, by rw [value?, stored]; rfl⟩
  case values =>
    intro a
    rw [get?_snapshot]
    exact ⟨exists_cell_iff, isSome_value?, isSome_value?, rfl⟩
  case rows =>
    intro row
    refine ⟨Snapshot.isSome_row?, p.getElem?_rows row, fun values found => ?_⟩
    obtain ⟨inside, rfl⟩ := Snapshot.row?_eq_some_iff.mp found
    rw [map_some_row inside]
    exact List.map_congr_left fun col _ => (get?_snapshot s _).symm
  case count =>
    rw [Snapshot.rows_eq, List.length_map, List.length_range]

end Sheet

end ReactiveSheet
