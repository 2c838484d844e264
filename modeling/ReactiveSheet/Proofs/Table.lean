import Mathlib.Data.List.Forall2
import ReactiveSheet.Proofs.Sheet.TypedBack
import ReactiveSheet.Proofs.Sheet.Views

/-!
The layout of tables.

Every line of a table is a row of fields with a mark before each and behind the last. Columns are
widened for every row, so that all entries of a column fit its width; with the blanks around it a
field is as long as its column is wide in every line. So all lines are equally long, and a column is
found at the same place in each. Every row of a snapshot has a value for each column, and neither
the values of a sheet that lines have made nor what stands at the edges has a line break.
-/

namespace ReactiveSheet

namespace Table

/-- Where columns of these widths lie in a line if the first field starts at `start`: the place of
each with its size, which counts the blanks on either side. -/
def columns (start : Nat) : List Nat → List (Nat × Nat)
  | [] => []
  | width :: widths => (start, width + 2) :: columns (start + width + 3) widths

def breadth : List Nat → Nat
  | [] => 1
  | width :: widths => width + 3 + breadth widths

def dashes {α : Type} (size : Nat) (_ : α) : List Char := List.replicate size '-'

def framed (size : Nat) (entry : Entry) : List Char := ' ' :: padded (size - 2) entry ++ [' ']

/-- The field lies between two marks and starts at this place. -/
def Shows (mark : Char) (start : Nat) (field l : List Char) : Prop :=
  ∃ before behind, before.length + 1 = start ∧ l = before ++ mark :: (field ++ mark :: behind)

/-- The line shows a row of entries in these columns, or a border if there is none. -/
def Lays (columns : List (Nat × Nat)) : Option (List Entry) → List Char → Prop
  | none, l => ∀ column ∈ columns, Shows '+' column.1 (List.replicate column.2 '-') l
  | some row, l => List.Forall₂ (fun column entry =>
      (framed column.2 entry).length = column.2 ∧ Shows '|' column.1 (framed column.2 entry) l)
      columns row

section Fields

variable {α : Type} {field : Nat → α → List Char} {widths : List Nat} {items : List α} {mark : Char}

def ruled (mark : Char) (field : Nat → α → List Char) (widths : List Nat) (items : List α) :
    List Char :=
  mark :: (widths.zipWith (fun width item => field (width + 2) item ++ [mark]) items).flatten

def Fills (field : Nat → α → List Char) (widths : List Nat) (items : List α) : Prop :=
  List.Forall₂ (fun width item => (field (width + 2) item).length = width + 2) widths items

theorem Fills.length_ruled (h : Fills field widths items) (mark : Char) :
    (ruled mark field widths items).length = breadth widths := by
  induction h with
  | nil => rfl
  | @cons width item widths items fills others ih =>
    rw [ruled, List.length_cons] at ih
    rw [ruled, List.zipWith_cons_cons, List.flatten_cons, List.length_cons, List.length_append,
      List.length_append, fills, breadth, ← ih]
    simp only [List.length_singleton]
    omega

theorem Fills.shows_ruled (h : Fills field widths items) (mark : Char) (before : List Char) :
    List.Forall₂ (fun column item => (field column.2 item).length = column.2 ∧
      Shows mark column.1 (field column.2 item) (before ++ ruled mark field widths items))
      (columns (before.length + 1) widths) items := by
  -- The fields to the left become part of what comes before, so this is for every `before`.
  induction h generalizing before with
  | nil => exact .nil
  | @cons width item widths items fills others ih =>
    let rest := (widths.zipWith (fun width item => field (width + 2) item ++ [mark]) items).flatten
    refine .cons ⟨fills, before, rest, rfl, by simp [ruled, rest]⟩ ?_
    have next := ih (before ++ mark :: field (width + 2) item)
    have start : (before ++ mark :: field (width + 2) item).length + 1 =
        before.length + 1 + width + 3 := by
      rw [List.length_append, List.length_cons, fills]
      omega
    have whole : (before ++ mark :: field (width + 2) item) ++ ruled mark field widths items =
        before ++ ruled mark field (width :: widths) (item :: items) := by
      simp [ruled]
    rwa [start, whole] at next

theorem not_mem_ruled {c : Char} (other : c ≠ mark)
    (fields : ∀ item ∈ items, ∀ size, c ∉ field size item) :
    c ∉ ruled mark field widths items := by
  rw [ruled, List.mem_cons, not_or]
  refine ⟨other, fun h => ?_⟩
  obtain ⟨part, hpart, mem⟩ := List.mem_flatten.mp h
  obtain ⟨i, hi, rfl⟩ := List.mem_iff_getElem.mp hpart
  rw [List.getElem_zipWith] at mem
  rcases List.mem_append.mp mem with inside | last
  · exact fields _ (List.getElem_mem _) _ inside
  · exact other (List.mem_singleton.mp last)

end Fields

variable {widths : List Nat} {row : List Entry}

def Fits (widths : List Nat) (row : List Entry) : Prop :=
  List.Forall₂ (fun width entry => entry.text.length ≤ width) widths row

theorem Fits.widen {other : List Entry} (h : Fits widths other)
    (same : row.length = widths.length) : Fits (widen widths row) other := by
  induction h generalizing row with
  | nil =>
    obtain rfl := List.length_eq_zero_iff.mp same
    exact .nil
  | cons first others ih =>
    obtain ⟨entry, row, rfl⟩ := List.exists_cons_of_length_eq_add_one same
    exact .cons (Nat.le_trans first (Nat.le_max_left _ _)) (ih (Nat.succ.inj same))

theorem fits_widen (same : row.length = widths.length) : Fits (widen widths row) row := by
  induction widths generalizing row with
  | nil =>
    obtain rfl := List.length_eq_zero_iff.mp same
    exact .nil
  | cons width widths ih =>
    obtain ⟨entry, row, rfl⟩ := List.exists_cons_of_length_eq_add_one same
    exact .cons (Nat.le_max_right _ _) (ih (Nat.succ.inj same))

/-- The widths that have been widened for some rows fit each of them, and whatever fitted before. -/
theorem fits_foldl_widen {rows : List (List Entry)}
    (same : ∀ row ∈ rows, row.length = widths.length) :
    (∀ row ∈ rows, Fits (rows.foldl widen widths) row) ∧
      ∀ other, Fits widths other → Fits (rows.foldl widen widths) other := by
  induction rows generalizing widths with
  | nil => exact ⟨fun _ hr => absurd hr List.not_mem_nil, fun _ fits => fits⟩
  | cons row rows ih =>
    obtain ⟨first, others⟩ := List.forall_mem_cons.mp same
    -- The first row fits once the columns have been widened for it; later rows take nothing away.
    have kept : (Table.widen widths row).length = widths.length := by simp [Table.widen, first]
    obtain ⟨each, before⟩ := ih fun row' hr => (others row' hr).trans kept.symm
    exact ⟨List.forall_mem_cons.mpr ⟨before row (fits_widen first), each⟩,
      fun other fits => before other (fits.widen first)⟩

theorem length_framed {width : Nat} {entry : Entry} (h : entry.text.length ≤ width) :
    (framed (width + 2) entry).length = width + 2 := by
  have padding : (padded width entry).length = width := by
    unfold padded
    split
    · rw [List.length_rightpad, Nat.max_eq_left h]
    · rw [List.length_leftpad, Nat.max_eq_left h]
  rw [framed, Nat.add_sub_cancel, List.length_append, List.length_cons, padding]
  rfl

theorem Fits.fills (h : Fits widths row) : Fills framed widths row :=
  h.imp fun _ _ => length_framed

theorem fills_dashes (widths : List Nat) : Fills dashes widths widths :=
  List.forall₂_same.mpr fun _ _ => List.length_replicate

theorem border_eq (widths : List Nat) : border widths = ruled '+' dashes widths widths := by
  rw [border, ruled, List.zipWith_self, List.flatMap_def]
  rfl

theorem line_eq (widths : List Nat) (row : List Entry) :
    line widths row = ruled '|' framed widths row := by
  rw [line, ruled, List.zipWith_comm]
  simp [framed]

theorem lays_border (widths : List Nat) : Lays (columns 1 widths) none (border widths) := by
  rw [border_eq]
  have each := (fills_dashes widths).shows_ruled '+' []
  exact ((List.forall₂_and_left _ _).mp (each.imp fun _ _ h => ⟨h.2, trivial⟩)).1

theorem Fits.lays_line (h : Fits widths row) :
    Lays (columns 1 widths) (some row) (line widths row) := by
  rw [line_eq]
  exact h.fills.shows_ruled '|' []

theorem length_border (widths : List Nat) : (border widths).length = breadth widths := by
  rw [border_eq, (fills_dashes widths).length_ruled]

theorem Fits.length_line (h : Fits widths row) : (line widths row).length = breadth widths := by
  rw [line_eq, h.fills.length_ruled]

theorem newline_not_mem_border (widths : List Nat) : '\n' ∉ border widths := by
  rw [border_eq]
  refine not_mem_ruled (by decide) fun _ _ size h => ?_
  exact absurd (List.eq_of_mem_replicate h) (by decide)

theorem of_mem_framed {size : Nat} {entry : Entry} {c : Char} (h : c ∈ framed size entry) :
    c = ' ' ∨ c ∈ entry.text := by
  unfold framed padded at h
  split at h <;>
    simp only [List.rightpad, List.leftpad, List.mem_append, List.mem_cons, List.mem_replicate,
      List.not_mem_nil, or_false] at h <;>
    tauto

theorem newline_not_mem_line (clean : ∀ entry ∈ row, '\n' ∉ entry.text) :
    '\n' ∉ line widths row := by
  rw [line_eq]
  refine not_mem_ruled (by decide) fun entry he size h => ?_
  rcases of_mem_framed h with blank | inside
  · exact absurd blank (by decide)
  · exact clean entry he inside

def widthsFor (headers : List Entry) (rows : List (List Entry)) : List Nat :=
  rows.foldl widen (headers.map fun h => h.text.length)

/-- What the lines of a table show, from the first to the last: `none` stands for a border. -/
def contents (headers : List Entry) (rows : List (List Entry)) : List (Option (List Entry)) :=
  none :: some headers :: none :: (rows.map some ++ [none])

/-- The text is a table with these contents: a line break ends each line and stands nowhere else,
the lines are equally long, and each shows its row in the same columns. -/
structure Drawn (text : String) (contents : List (Option (List Entry))) (widths : List Nat)
    (lines : List (List Char)) : Prop where
  text_eq : text = String.ofList (lines.flatMap fun l => l ++ ['\n'])
  unbroken : ∀ l ∈ lines, '\n' ∉ l
  length : ∀ l ∈ lines, l.length = breadth widths
  lays : List.Forall₂ (Lays (columns 1 widths)) contents lines

variable {headers : List Entry} {rows : List (List Entry)}

theorem fits_widthsFor (same : ∀ row ∈ rows, row.length = headers.length) :
    Fits (widthsFor headers rows) headers ∧ ∀ row ∈ rows, Fits (widthsFor headers rows) row := by
  have start : Fits (headers.map fun h => h.text.length) headers :=
    List.forall₂_map_left_iff.mpr (List.forall₂_same.mpr fun _ _ => Nat.le_refl _)
  have columns : ∀ row ∈ rows, row.length = (headers.map fun h => h.text.length).length :=
    fun row hr => by rw [same row hr, List.length_map]
  obtain ⟨each, before⟩ := fits_foldl_widen columns
  exact ⟨before headers start, each⟩

theorem length_lines (headers : List Entry) (rows : List (List Entry)) :
    (lines headers rows).length = rows.length + 4 := by
  simp [lines]

theorem lays_lines (same : ∀ row ∈ rows, row.length = headers.length) :
    List.Forall₂ (Lays (columns 1 (widthsFor headers rows))) (contents headers rows)
      (lines headers rows) := by
  obtain ⟨head, each⟩ := fits_widthsFor same
  have border := lays_border (widthsFor headers rows)
  refine .cons border (.cons head.lays_line (.cons border (List.rel_append ?_ (.cons border .nil))))
  exact List.forall₂_map_left_iff.mpr (List.forall₂_map_right_iff.mpr
    (List.forall₂_same.mpr fun row hr => (each row hr).lays_line))

theorem of_mem_lines {P : List Char → Prop} (border : P (border (widthsFor headers rows)))
    (head : P (line (widthsFor headers rows) headers))
    (each : ∀ row ∈ rows, P (line (widthsFor headers rows) row)) {l : List Char}
    (h : l ∈ lines headers rows) : P l := by
  simp only [lines, List.mem_append, List.mem_cons, List.not_mem_nil, or_false, List.mem_map] at h
  rcases h with ((rfl | rfl | rfl) | ⟨row, hr, rfl⟩) | rfl
  · exact border
  · exact head
  · exact border
  · exact each row hr
  · exact border

/-- A table with as many entries in each row as there are headers, and without line breaks in them,
is drawn as one. -/
theorem drawn_draw (same : ∀ row ∈ rows, row.length = headers.length)
    (head : ∀ entry ∈ headers, '\n' ∉ entry.text)
    (each : ∀ row ∈ rows, ∀ entry ∈ row, '\n' ∉ entry.text) :
    Drawn (draw headers rows) (contents headers rows) (widthsFor headers rows)
      (lines headers rows) where
  text_eq := rfl
  unbroken _ := of_mem_lines (P := fun l => '\n' ∉ l) (newline_not_mem_border _)
    (newline_not_mem_line head) fun row hr => newline_not_mem_line (each row hr)
  length _ := by
    obtain ⟨fits, others⟩ := fits_widthsFor same
    exact of_mem_lines (P := fun l => l.length = breadth (widthsFor headers rows))
      (length_border _) fits.length_line fun row hr => (others row hr).length_line
  lays := lays_lines same

end Table

variable {e : Extent}

theorem Extent.length_headers (e : Extent) : e.headers.length = e.cols + 1 := by
  rw [headers, List.length_cons, List.length_map, List.length_range]

theorem Extent.headers_unbroken (e : Extent) : ∀ entry ∈ e.headers, '\n' ∉ entry.text := by
  intro entry he
  rcases List.mem_cons.mp he with rfl | named
  · exact List.not_mem_nil
  · obtain ⟨col, -, rfl⟩ := List.mem_map.mp named
    intro h
    rw [Table.entry, Column.letters, String.toList_ofList] at h
    exact Column.of_mem_numeral (P := fun c => c ≠ '\n') (by decide) h rfl

theorem Table.numbered_unbroken {values : List Value} (row : Nat)
    (h : ∀ v ∈ values, v.OneLine) : ∀ entry ∈ numbered values row, '\n' ∉ entry.text := by
  intro entry he
  rcases List.mem_cons.mp he with rfl | shown
  · intro h
    rw [Nat.toString_eq_ofList_toDigits, String.toList_ofList] at h
    have digit := Address.isDigit_of_mem_toDigits h
    exact absurd digit (by decide)
  · obtain ⟨v, hv, rfl⟩ := List.mem_map.mp shown
    exact h v hv

def Snapshot.numberedRows (p : Snapshot e) : List (List Entry) :=
  p.rows.mapIdx fun row values => Table.numbered values row

theorem Sheet.length_numberedRows (s : Sheet e) : s.snapshot.numberedRows.length = e.rows := by
  rw [Snapshot.numberedRows, List.length_mapIdx, Snapshot.rows_eq, List.length_map,
    List.length_range]

theorem Sheet.mem_numberedRows {s : Sheet e} {row : List Entry}
    (h : row ∈ s.snapshot.numberedRows) :
    ∃ n < e.rows, row = Table.numbered (s.snapshot.row n) n := by
  obtain ⟨n, hn, rfl⟩ := List.mem_mapIdx.mp h
  have inside : n < e.rows := by simpa [Snapshot.rows_eq] using hn
  exact ⟨n, inside, by simp [Snapshot.rows_eq]⟩

namespace Sheet

/-- After any lines, no value has a line break, and the table of the sheet has equally long lines
that show its rows in the same columns. -/
theorem enter_keeps_tables_rectangular (e : Extent) (entered : List String) :
    let s := (blank e).enter entered
    (∀ a v, s.value? a = some v → v.OneLine) ∧
      ∃ widths lines, widths.length = e.cols + 1 ∧ lines.length = e.rows + 4 ∧
        Table.Drawn s.table (Table.contents e.headers s.snapshot.numberedRows) widths lines := by
  intro s
  have values : ∀ a v, s.value? a = some v → v.OneLine := fun a v => value?_oneLine e entered
  have same : ∀ row ∈ s.snapshot.numberedRows, row.length = e.headers.length := by
    intro row hr
    obtain ⟨n, hn, rfl⟩ := mem_numberedRows hr
    rw [Extent.length_headers, Table.numbered, List.length_cons, List.length_map, length_row hn]
  have each : ∀ row ∈ s.snapshot.numberedRows, ∀ entry ∈ row, '\n' ∉ entry.text := by
    intro row hr
    obtain ⟨n, hn, rfl⟩ := mem_numberedRows hr
    refine Table.numbered_unbroken n fun v hv => ?_
    obtain ⟨a, value⟩ := value?_of_mem_row hn hv
    exact values a v value
  refine ⟨values, Table.widthsFor e.headers s.snapshot.numberedRows,
    Table.lines e.headers s.snapshot.numberedRows, ?_, ?_,
    Table.drawn_draw same e.headers_unbroken each⟩
  · rw [(Table.fits_widthsFor same).1.length_eq, Extent.length_headers]
  · rw [Table.length_lines, length_numberedRows]

end Sheet

end ReactiveSheet
