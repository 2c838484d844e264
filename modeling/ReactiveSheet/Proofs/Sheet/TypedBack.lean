import ReactiveSheet.Proofs.Command
import ReactiveSheet.Proofs.Formula.Acceptance
import ReactiveSheet.Proofs.Formula.RoundTrip
import ReactiveSheet.Proofs.Sheet.Settled
import ReactiveSheet.Proofs.Sheet.Values

/-!
Values that are typed, and typed back.

The right side of an assignment has no line break, although blanks around the equals sign may be
line breaks, and so no value of a sheet that lines have made has one. A text between two quotes is
put into a cell as it is, whatever it looks like. What a finite number is displayed as is read as
the same number when it is typed.
-/

namespace ReactiveSheet

theorem Decimal.of_mem_digits {P : Char → Prop} (digit : ∀ n : Fin 10, P (Nat.digitChar n))
    (point : P '.') (d : Decimal) {c : Char} (hc : c ∈ d.digits) : P c := by
  have padded {width : Nat} {c : Char}
      (h : c ∈ (Nat.toDigits 10 d.positional.mantissa).leftpad width '0') : P c :=
    Text.of_isDigit digit (isDigit_of_mem_leftpad h)
  unfold digits at hc
  dsimp only at hc
  split at hc
  · exact padded hc
  · rcases List.mem_append.mp hc with before | behind
    · exact padded (List.mem_of_mem_take before)
    · rcases List.mem_cons.mp behind with rfl | after
      · exact point
      · exact padded (List.mem_of_mem_drop after)

theorem Numeral.newline_not_mem_textOf (x : Float) : '\n' ∉ (textOf x).toList := by
  have signed : '\n' ∉ (if x < 0 then "-" else "").toList := by split <;> decide
  have digits : '\n' ∉ (Decimal.shortest x.abs).digits := fun h =>
    Decimal.of_mem_digits (P := fun c => c ≠ '\n') (by decide) (by decide) _ h rfl
  unfold textOf
  split
  · decide
  split
  · decide
  dsimp only
  generalize (if x < 0 then "-" else "") = sign at signed ⊢
  split
  · rw [String.toList_append, List.mem_append]
    exact not_or.mpr ⟨signed, by decide⟩
  · rw [String.toList_append, List.mem_append, String.toList_ofList]
    exact not_or.mpr ⟨signed, digits⟩

namespace Value

def OneLine (v : Value) : Prop := '\n' ∉ v.display.toList

theorem oneLine_number (n : Float) : (Value.number n).OneLine := Numeral.newline_not_mem_textOf n

theorem oneLine_fault (cause : Fault) : (Value.fault cause).OneLine := by
  cases cause <;> exact fun h => by simp [display, Fault.marker] at h

theorem oneLine_text {s : String} : (Value.text s).OneLine ↔ '\n' ∉ s.toList := Iff.rfl

theorem closed_oneLine : Formula.Closed OneLine where
  number n _ := oneLine_number n
  fault cause _ := oneLine_fault cause
  join parts displayed := by
    rw [oneLine_text, String.toList_join]
    intro h
    obtain ⟨part, hpart, mem⟩ := List.mem_flatMap.mp h
    obtain ⟨v, hv, rfl⟩ := displayed part hpart
    exact hv mem

theorem oneLine_storable {v : Value} (h : v.OneLine) : v.storable.OneLine := by
  cases v with
  | number n =>
    rw [storable]
    split
    · exact oneLine_number n
    · exact oneLine_fault _
  | text s => exact h
  | fault cause => exact h

theorem oneLine_ofTyped {text : String} (h : '\n' ∉ text.toList) : (ofTyped text).OneLine := by
  unfold ofTyped
  dsimp only
  split
  · exact List.not_mem_nil
  · split
    · split
      · exact oneLine_number _
      · exact h
    · exact h

end Value

/-- The text of input as it has been typed, without what marks its kind. -/
def Input.written : Input → String
  | .literal s => s
  | .text s => s
  | .formula s => s

theorem Input.ofChars_subset (cs : List Char) : (Input.ofChars cs).written.toList ⊆ cs := by
  have trimmed := Text.trim_subset cs
  unfold Input.ofChars
  split
  · rename_i rest same
    rw [same] at trimmed
    intro c hc
    rw [Input.written, String.toList_ofList] at hc
    exact trimmed (List.mem_cons_of_mem _ (Text.trim_subset rest hc))
  · rename_i rest same
    rw [same] at trimmed
    split
    · intro c hc
      rw [Input.written, String.toList_ofList] at hc
      exact trimmed (List.mem_cons_of_mem _ (List.mem_of_mem_dropLast hc))
    · intro c hc
      rw [Input.written, String.toList_ofList] at hc
      exact trimmed hc
  · intro c hc
    rw [Input.written, String.toList_ofList] at hc
    exact trimmed hc

namespace Command

theorem newline_not_mem_written {line : String} {a : Address} {input : Input}
    (h : ofLine line = .ok (.assign a input)) : '\n' ∉ input.written.toList := by
  obtain ⟨letters, digits, rest, assigns, -, entered⟩ := means_assign_iff.mp (ofLine_eq_iff.mp h)
  rw [← trim_trimLeft] at entered
  rw [← entered.ofChars_eq]
  exact fun mem => assigns.unbroken (Input.ofChars_subset _ mem)

end Command

namespace Sheet

variable {e : Extent}

theorem Asks.oneLine {line : String} {a : Address} {edit : Edit} (h : Asks e line a edit) :
    edit.Brings Value.OneLine := by
  obtain ⟨input, asked, makes⟩ := h
  have written := Command.newline_not_mem_written asked
  cases makes with
  | literal text => exact Value.oneLine_storable (Value.oneLine_ofTyped written)
  | text text => exact written
  | formula read =>
    intro cells values
    refine Formula.evaluate_of Value.closed_oneLine (fun v hv => ?_) values
    rcases Formula.of_mem_literals_ofText read hv with ⟨n, rfl⟩ | ⟨s, rfl, chars⟩
    · exact Value.oneLine_number n
    · exact fun mem => written (chars mem)

theorem value?_oneLine (e : Extent) (lines : List String) {c : Address} {v : Value}
    (h : ((blank e).enter lines).value? c = some v) : v.OneLine := by
  obtain ⟨history, asked, same⟩ := (blank e).enter_eq_perform_asked lines
  have keeping : Keeping Value.OneLine ((blank e).perform history) := by
    refine keeping_perform (keeping_blank List.not_mem_nil) (Value.oneLine_fault _) fun x hx => ?_
    obtain ⟨line, -, asks⟩ := asked x hx
    exact asks.oneLine
  exact keeping.values c v (same ▸ h)

end Sheet

theorem Numeral.of_mem_head_textOf {P : Char → Prop} (digit : ∀ n : Fin 10, P (Nat.digitChar n))
    (minus : P '-') {x : Float} (finite : x.isFinite = true) :
    ∀ c ∈ (textOf x).toList.head?, P c := by
  intro c hc
  by_cases h : x < 0
  · obtain ⟨-, -, text⟩ := textOf_of_neg finite h
    rw [text] at hc
    obtain rfl := Option.some.inj hc
    exact minus
  · obtain ⟨d, written, -⟩ := written_textOf finite h
    obtain ⟨c', tail, text, isDigit⟩ := written.exists_cons
    rw [text] at hc
    obtain rfl := Option.some.inj hc
    exact Text.of_isDigit digit isDigit

namespace Value

/-- What a finite number is displayed as stands for the same number. -/
theorem ofTyped_display {n : Float} (finite : n.isFinite = true) :
    ∃ m, ofTyped (Value.number n).display = .number m ∧ m.isFinite = true ∧ (m == n) = true := by
  obtain ⟨m, read, same⟩ := Numeral.textOf_reads_back finite
  have bare := Formula.bare_textOf finite
  have some : (Numeral.textOf n).toList.isEmpty = false := by
    obtain ⟨c, first, -⟩ := bare.first
    exact List.isEmpty_eq_false_iff.mpr fun none => by simp [none] at first
  have finite' : m.isFinite = true := (Numeral.Alike.of_beq same).isFinite.trans finite
  refine ⟨m, ?_, finite', same⟩
  simp [ofTyped, display, bare.trim_eq, some, read, finite']

end Value

namespace Sheet

variable {e : Extent} {s t : Sheet e} {a : Address} {edit : Edit} {line : String}

theorem asks_text (ha : a ∈ e) {text : String} (unbroken : '\n' ∉ text.toList) :
    Asks e (a.label ++ " = \"" ++ text ++ "\"") a (.value (.text text)) := by
  let right := '"' :: (text.toList ++ ['"'])
  have written : (a.label ++ " = \"" ++ text ++ "\"").toList =
      a.label.toList ++ ([' '] ++ '=' :: ([' '] ++ right)) := by simp [right]
  have blank : ∀ c ∈ [' '], Text.isBlank c = true := List.forall_mem_singleton.mpr rfl
  have first : ∀ c ∈ right.head?, Text.isBlank c = false := by
    intro c hc
    obtain rfl := Option.some.inj hc
    rfl
  have last : right.getLast? = some '"' := List.getLast?_concat (l := '"' :: text.toList)
  have line : '\n' ∉ right := by simpa [right] using unbroken
  have read := Command.ofLine_assignment ha written blank blank first ⟨'"', last, rfl⟩ line
  rw [Input.ofChars_quoted] at read
  exact ⟨_, read, .text text⟩

theorem asks_display (ha : a ∈ e) {n : Float} (finite : n.isFinite = true) :
    Asks e (a.label ++ " = " ++ (Value.number n).display) a
      (.typed (Value.number n).display) := by
  have bare := Formula.bare_textOf finite
  have written : (a.label ++ " = " ++ (Value.number n).display).toList =
      a.label.toList ++ ([' '] ++ '=' :: ([' '] ++ (Numeral.textOf n).toList)) := by
    simp [Value.display]
  have blank : ∀ c ∈ [' '], Text.isBlank c = true := List.forall_mem_singleton.mpr rfl
  have first : ∀ c ∈ (Numeral.textOf n).toList.head?, Text.isBlank c = false ∧ c ≠ '=' ∧ c ≠ '"' :=
    Numeral.of_mem_head_textOf (P := fun c => Text.isBlank c = false ∧ c ≠ '=' ∧ c ≠ '"')
      (by decide) (by decide) finite
  have read := Command.ofLine_assignment ha written blank blank (fun c hc => (first c hc).1)
    bare.last (Value.oneLine_number n)
  rw [Input.ofChars_plain bare.trim_eq fun c hc => (first c hc).2, String.ofList_toList] at read
  exact ⟨_, read, .literal _⟩

theorem execute_value (linked : Linked s) (ha : a ∈ e) (asks : Asks e line a edit)
    (plain : edit.formula? = none) :
    ∃ r t, s.execute line = .ok (.assigned a r, t) ∧ t.formula? a = none ∧
      ∃ w, t.value? a = some w ∧ w.Alike (t.dueBy a edit) := by
  obtain ⟨r, t, done, h⟩ := asks.execute s ha
  have edited := edited linked h
  have formula : t.formula? a = none := by rw [edited.formula, if_pos rfl, plain]
  exact ⟨r, t, done, formula, edited.target.alike⟩

/-- Whatever has been done to a sheet, a text typed between quotes is what its cell holds then, and
what a finite number is displayed as gives the cell an equal number. -/
theorem values_type_back (e : Extent) (history : List (Address × Edit)) {a : Address}
    (inside : a ∈ e) :
    let s := (blank e).perform history
    (∀ text : String, '\n' ∉ text.toList →
      ∃ r t, s.execute (a.label ++ " = \"" ++ text ++ "\"") = .ok (.assigned a r, t) ∧
        t.formula? a = none ∧ t.value? a = some (.text text)) ∧
      ∀ n : Float, n.isFinite = true →
        ∃ r t m, s.execute (a.label ++ " = " ++ (Value.number n).display) =
            .ok (.assigned a r, t) ∧
          t.formula? a = none ∧ t.value? a = some (.number m) ∧ (m == n) = true := by
  intro s
  have linked : Linked s := linked_perform linked_blank history
  constructor
  · intro text unbroken
    obtain ⟨r, t, done, formula, w, value, same⟩ :=
      execute_value linked inside (asks_text inside unbroken) rfl
    cases same with
    | text text => exact ⟨r, t, done, formula, value⟩
  · intro n finite
    obtain ⟨r, t, done, formula, w, value, same⟩ :=
      execute_value linked inside (asks_display inside finite) rfl
    obtain ⟨m, typed, finite', equal⟩ := Value.ofTyped_display finite
    rw [dueBy, typed, Value.storable, if_pos finite'] at same
    cases same with
    | number alike =>
      exact ⟨r, t, _, done, formula, value,
        (alike.trans (.of_beq equal)).beq_of_isFinite finite⟩

/-- A text that looks like a formula, with a quote inside and a blank behind, and a number below
zero. -/
theorem values_type_back_quote :
    let e : Extent := ⟨1, 1, by decide, by decide, by decide, by decide⟩
    let a : Address := ⟨0, 0⟩
    (∃ r t, (blank e).execute (a.label ++ " = \"" ++ "=A1 & \" " ++ "\"") = .ok (.assigned a r, t) ∧
      t.formula? a = none ∧ t.value? a = some (.text "=A1 & \" ")) ∧
      ∃ r t m, (blank e).execute (a.label ++ " = " ++ (Value.number (-0.5)).display) =
          .ok (.assigned a r, t) ∧
        t.formula? a = none ∧ t.value? a = some (.number m) ∧ (m == -0.5) = true := by
  intro e a
  obtain ⟨texts, numbers⟩ := values_type_back e [] (a := a) (by decide)
  exact ⟨texts "=A1 & \" " (by decide), numbers (-0.5) rfl⟩

end Sheet

end ReactiveSheet
