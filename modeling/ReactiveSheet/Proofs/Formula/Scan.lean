import Mathlib.Tactic.FinCases
import ReactiveSheet.Formula.Token
import ReactiveSheet.Proofs.Decimal.ReadBack

/-!
What a lexeme can be, and the tokens of printed formulas.

`Scanned` has a case for each kind of token, with what the text must be for one of this kind. Each
piece that the printer makes is one token, whatever comes before it, and whatever comes after it if
that `Follows` an operand. The tokens of a printed formula are then found piece by piece, from the
left.
-/

namespace ReactiveSheet

namespace Lexeme

variable {total : Nat} {c : Char} {tail : List Char} {lexeme : Lexeme tail}

theorem before_cons {cs rest : List Char} (h : rest <:+ cs) :
    before (c :: cs) rest = c :: before cs rest := by
  rw [before, List.length_cons, Nat.succ_sub h.length_le, List.take_succ_cons, before]

/-- A token that the text may start with, and what is left behind it. -/
inductive Scanned (c : Char) (tail : List Char) : Token → List Char → Prop where
  | punctuation {p : Punctuation} (symbol : Punctuation.ofSymbol? c = some p) :
    Scanned c tail (.punctuation p) tail
  | operator {op : Operator} (symbol : Operator.ofSymbol? c = some op) :
    Scanned c tail (.operator op) tail
  | comparator {cmp : Comparator} {piece rest : List Char}
    (known : Comparator.ofSymbol? (String.ofList piece) = some cmp)
    (split : c :: tail = piece ++ rest) : Scanned c tail (.comparator cmp) rest
  | text {content rest : List Char} (quote : c = '"')
    (closes : quoted? tail = some (content, rest)) :
    Scanned c tail (.text (String.ofList content)) rest
  | number {n : Float} (start : startsNumber c tail = true)
    (read : Numeral.float? (c :: before tail (afterNumber c tail)) = some n)
    (finite : n.isFinite = true) : Scanned c tail (.number n) (afterNumber c tail)
  | name (start : isNameStart c = true) : Scanned c tail (name c tail).token (name c tail).rest

theorem scanned_shortComparator (h : shortComparator total c tail = .ok lexeme) :
    Scanned c tail lexeme.token lexeme.rest := by
  unfold shortComparator at h
  split at h
  · rename_i cmp known
    cases h
    exact .comparator known rfl
  · cases h

theorem scanned_comparator (h : comparator total c tail = .ok lexeme) :
    Scanned c tail lexeme.token lexeme.rest := by
  unfold comparator at h
  split at h
  · split at h
    · split at h
      · rename_i cmp known
        cases h
        exact .comparator known rfl
      · exact scanned_shortComparator h
    · exact scanned_shortComparator h
  · exact scanned_shortComparator h

theorem scanned_text (quote : c = '"') (h : text total tail = .ok lexeme) :
    Scanned c tail lexeme.token lexeme.rest := by
  unfold text at h
  split at h
  · rename_i content rest closes
    cases h
    exact .text quote closes
  · cases h

theorem scanned_number (start : startsNumber c tail = true) (h : number c tail = .ok lexeme) :
    Scanned c tail lexeme.token lexeme.rest := by
  unfold number at h
  dsimp only at h
  rw [before_cons (afterNumber_suffix c tail)] at h
  split at h
  · rename_i n read
    split at h
    · rename_i finite
      cases h
      exact .number start read finite
    · cases h
  · cases h

theorem scanned_scan (h : scan total c tail = .ok lexeme) :
    Scanned c tail lexeme.token lexeme.rest := by
  unfold scan at h
  split at h
  · rename_i p symbol
    cases h
    exact .punctuation symbol
  split at h
  · rename_i op symbol
    cases h
    exact .operator symbol
  split at h
  · exact scanned_comparator h
  split at h
  · rename_i quote
    exact scanned_text quote h
  split at h
  · rename_i start
    exact scanned_number start h
  split at h
  · rename_i start
    cases h
    exact .name start
  · cases h

/-- Whether a character could go on with a number, a text or a name. -/
def goesOn (c : Char) : Bool := isNamePart c || c = '.' || c = '"'

theorem not_digit_of_goesOn {c : Char} (h : goesOn c = false) : c.isDigit = false := by
  simp only [goesOn, isNamePart, Char.isAlphanum, Bool.or_eq_false_iff] at h
  exact h.1.1.1.2

theorem not_namePart_of_goesOn {c : Char} (h : goesOn c = false) : isNamePart c = false := by
  simp only [goesOn, Bool.or_eq_false_iff] at h
  exact h.1.1

theorem ne_of_goesOn {c d : Char} (h : goesOn c = false) (hd : goesOn d = true) : c ≠ d := by
  rintro rfl
  exact Bool.noConfusion (h.symm.trans hd)

end Lexeme

/-- What may stand behind an operand in a printed formula. It neither goes on with the operand nor
makes the name of a function of it. -/
structure Follows (rest : List Char) : Prop where
  stop : ∀ c ∈ rest.head?, c = ' ' ∨ c = ',' ∨ c = ')'
  visible : Lexeme.firstVisible rest ≠ some '('

namespace Follows

theorem nil : Follows [] where
  stop _ hc := nomatch hc
  visible h := nomatch h

theorem head {P : Char → Prop} {rest : List Char} (h : Follows rest) (blank : P ' ') (comma : P ',')
    (closing : P ')') : ∀ c ∈ rest.head?, P c := by
  intro c hc
  rcases h.stop c hc with rfl | rfl | rfl
  · exact blank
  · exact comma
  · exact closing

theorem apart {rest : List Char} (h : Follows rest) :
    ∀ c ∈ rest.head?, Lexeme.goesOn c = false := h.head rfl rfl rfl

theorem cons {c : Char} {rest : List Char} (stop : c = ',' ∨ c = ')') : Follows (c :: rest) where
  stop d hd := by
    obtain rfl := Option.some.inj hd
    exact Or.inr stop
  visible h := by
    rcases stop with rfl | rfl
    · exact absurd (Option.some.inj h) (by decide)
    · exact absurd (Option.some.inj h) (by decide)

theorem operator (op : Operator) (rest : List Char) :
    Follows ((Formula.spaced op.symbol.toString).toList ++ rest) where
  stop d hd := by
    have first : d = ' ' := by cases op <;> exact (Option.some.inj hd).symm
    exact Or.inl first
  visible h := by cases op <;> exact absurd (Option.some.inj h) (by decide)

theorem comparator (cmp : Comparator) (rest : List Char) :
    Follows ((Formula.spaced cmp.symbol).toList ++ rest) where
  stop d hd := by
    have first : d = ' ' := by cases cmp <;> exact (Option.some.inj hd).symm
    exact Or.inl first
  visible h := by cases cmp <;> exact absurd (Option.some.inj h) (by decide)

end Follows

namespace Lexeme

/-- The token at the start of a text, with what is left behind it. -/
def Leads (total : Nat) (cs : List Char) (t : Token) (rest : List Char) : Prop :=
  ∃ c tail, ∃ lexeme : Lexeme tail, cs = c :: tail ∧ Text.isBlank c = false ∧
    scan total c tail = .ok lexeme ∧ lexeme.token = t ∧ lexeme.rest = rest

variable {total : Nat} {rest : List Char}

theorem scan_of_startsNumber {c : Char} {tail : List Char} (h : startsNumber c tail = true) :
    scan total c tail = number c tail := by
  simp only [startsNumber, Bool.or_eq_true, Bool.and_eq_true, decide_eq_true_eq] at h
  rcases h with digit | ⟨rfl, digit⟩
  · apply Text.of_isDigit (P := fun c => scan total c tail = number c tail) _ digit
    intro n
    fin_cases n <;> rfl
  · have start : startsNumber '.' tail = true := by simp [startsNumber, digit]
    have scanned : scan total '.' tail =
        if startsNumber '.' tail then number '.' tail
        else .error (.unexpectedCharacter '.' (position total ('.' :: tail))) := rfl
    rw [scanned, if_pos start]

theorem isBlank_of_startsNumber {c : Char} {tail : List Char} (h : startsNumber c tail = true) :
    Text.isBlank c = false := by
  simp only [startsNumber, Bool.or_eq_true, Bool.and_eq_true, decide_eq_true_eq] at h
  rcases h with digit | ⟨rfl, -⟩
  · exact Text.of_isDigit (P := fun c => Text.isBlank c = false) (by decide) digit
  · rfl

theorem afterDigits_append (cs : List Char) (stop : ∀ c ∈ rest.head?, c.isDigit = false) :
    afterDigits (cs ++ rest) = afterDigits cs ++ rest := by
  have none : rest.dropWhile Char.isDigit = rest :=
    (Text.run_append (List.forall_mem_nil _) stop).2
  rw [afterDigits, afterDigits, List.dropWhile_append, none]
  split
  · rename_i empty
    rw [List.isEmpty_iff.mp empty, List.nil_append]
  · rfl

variable (apart : ∀ c ∈ rest.head?, goesOn c = false)

include apart

theorem not_digit_of_apart : ∀ c ∈ rest.head?, c.isDigit = false :=
  fun c hc => not_digit_of_goesOn (apart c hc)

theorem afterFraction_append (cs : List Char) :
    afterFraction (cs ++ rest) = afterFraction cs ++ rest := by
  cases cs with
  | nil =>
    cases rest with
    | nil => rfl
    | cons c rest => exact if_neg (ne_of_goesOn (apart c rfl) rfl)
  | cons c cs =>
    rw [List.cons_append, afterFraction, afterFraction]
    split
    · exact afterDigits_append cs (not_digit_of_apart apart)
    · rfl

theorem afterExponent_append {cs : List Char} {n : Int} (h : Numeral.scale? cs = some n) :
    afterExponent (cs ++ rest) = rest := by
  cases cs with
  | nil =>
    cases rest with
    | nil => rfl
    | cons c rest =>
      have other : ¬ (c = 'e' || c = 'E') := by
        simp [ne_of_goesOn (d := 'e') (apart c rfl) rfl, ne_of_goesOn (d := 'E') (apart c rfl) rfl]
      exact if_neg other
  | cons c cs =>
    rw [Numeral.scale?] at h
    split at h
    · rename_i letter
      obtain ⟨digits, some, all, sign⟩ := Numeral.of_exponent? h
      have stop : afterDigits (digits ++ rest) = rest :=
        (Text.run_append all (not_digit_of_apart apart)).2
      rw [List.cons_append, afterExponent, if_pos letter]
      rcases sign with rfl | rfl | rfl
      · obtain ⟨d, digits, rfl⟩ := List.exists_cons_of_ne_nil some
        have unsigned : ¬ (d = '+' || d = '-') := by
          have digit := all d List.mem_cons_self
          exact Text.of_isDigit (P := fun d => ¬ (d = '+' || d = '-')) (by decide) digit
        rwa [List.cons_append, afterSign, if_neg unsigned]
      · exact stop
      · exact stop
    · cases h

omit apart in
theorem scale?_of_decimal? {cs : List Char} {d : Decimal} (h : Numeral.decimal? cs = some d) :
    ∃ n, Numeral.scale? (afterFraction (afterDigits cs)) = some n := by
  unfold Numeral.decimal? at h
  dsimp only at h
  rw [afterDigits]
  generalize cs.dropWhile Char.isDigit = left at h ⊢
  split at h
  · split at h
    · exact nomatch h
    · obtain ⟨n, scale, -⟩ := Option.map_eq_some_iff.mp h
      exact ⟨n, scale⟩
  · rename_i other
    split at h
    · exact nomatch h
    · obtain ⟨n, scale, -⟩ := Option.map_eq_some_iff.mp h
      have none : afterFraction left = left := by
        cases left with
        | nil => rfl
        | cons c left =>
          have point : c ≠ '.' := by
            rintro rfl
            exact other left rfl
          exact if_neg point
      rw [none]
      exact ⟨n, scale⟩

omit apart in
theorem startsNumber_append {c : Char} {tail : List Char}
    (start : c.isDigit = true ∨ c = '.' ∧ ∃ c' ∈ tail.head?, c'.isDigit = true)
    (rest : List Char) : startsNumber c (tail ++ rest) = true := by
  rcases start with digit | ⟨rfl, c', first, digit⟩
  · simp [startsNumber, digit]
  · obtain ⟨tail, rfl⟩ := List.head?_eq_some_iff.mp first
    simp [startsNumber, digit]

omit apart in
theorem afterNumber_eq {c : Char} {tail : List Char} (start : startsNumber c tail = true) :
    afterNumber c tail = afterExponent (afterFraction (afterDigits (c :: tail))) := by
  by_cases point : c = '.'
  · subst point
    have none : afterDigits ('.' :: tail) = '.' :: tail := rfl
    rw [afterNumber, if_pos rfl, none, afterFraction, if_pos rfl]
  · have digit : c.isDigit = true := by simpa [startsNumber, point] using start
    have first : afterDigits (c :: tail) = afterDigits tail := List.dropWhile_cons_of_pos digit
    rw [afterNumber, if_neg point, first]

theorem afterNumber_append {c : Char} {tail : List Char} {d : Decimal}
    (h : Numeral.decimal? (c :: tail) = some d) (start : startsNumber c (tail ++ rest) = true) :
    afterNumber c (tail ++ rest) = rest := by
  obtain ⟨n, scale⟩ := scale?_of_decimal? h
  rw [afterNumber_eq start, ← List.cons_append, afterDigits_append _ (not_digit_of_apart apart),
    afterFraction_append apart, afterExponent_append apart scale]

omit apart in
theorem before_append (cs rest : List Char) : before (cs ++ rest) rest = cs := by
  rw [before, List.length_append, Nat.add_sub_cancel, List.take_left]

theorem leads_number {cs : List Char} {d : Decimal} (h : Numeral.decimal? cs = some d)
    (finite : d.toFloat.isFinite = true) : Leads total (cs ++ rest) (.number d.toFloat) rest := by
  obtain ⟨c, tail, rfl, first⟩ := Numeral.start_of_decimal? h
  have start := startsNumber_append first rest
  have left := afterNumber_append apart h start
  have found : number c (tail ++ rest) =
      .ok ⟨.number d.toFloat, rest, List.suffix_append tail rest⟩ := by
    have read : Numeral.float? (before (c :: (tail ++ rest)) rest) = some d.toFloat := by
      rw [← List.cons_append, before_append, Numeral.float?_of_start (first.imp_right And.left), h,
        Option.map_some]
    simp only [number, left, read, finite, if_true]
  exact ⟨c, _, _, rfl, isBlank_of_startsNumber start, (scan_of_startsNumber start).trans found, rfl,
    rfl⟩

omit apart

theorem quoted?_append (content : List Char) (h : ∀ c ∈ rest.head?, c ≠ '"') :
    quoted? (content.flatMap (fun c => if c = '"' then ['"', '"'] else [c]) ++ '"' :: rest) =
      some (content, rest) := by
  induction content with
  | nil =>
    rw [List.flatMap_nil, List.nil_append, quoted?, if_pos rfl]
    rintro rest' - rfl
    exact h '"' rfl rfl
  | cons c content ih =>
    rw [List.flatMap_cons]
    split
    · rename_i quote
      subst quote
      rw [List.append_assoc, List.cons_append, List.cons_append, List.nil_append, quoted?, ih]
      rfl
    · rename_i other
      rw [List.append_assoc, List.cons_append, List.nil_append, quoted?, if_neg other, ih]
      · rfl
      · exact fun rest' here => absurd here other

theorem leads_quoted (s : String) (h : ∀ c ∈ rest.head?, c ≠ '"') :
    Leads total ((Formula.quoted s).toList ++ rest) (.text s) rest := by
  have read := quoted?_append s.toList h
  refine ⟨'"', _, ⟨.text (String.ofList s.toList), rest, suffix_of_quoted? read⟩, ?_, rfl, ?_, ?_,
    rfl⟩
  · rw [Formula.quoted, String.toList_ofList, List.append_assoc]
    rfl
  · change text total _ = _
    unfold text
    split
    · rename_i found
      rw [read] at found
      obtain ⟨rfl, rfl⟩ := Prod.mk.inj (Option.some.inj found)
      rfl
    · rename_i none
      rw [read] at none
      exact nomatch none
  · exact congrArg Token.text String.ofList_toList

theorem scan_letter {c : Char} (h : c.isAlpha = true) (tail : List Char) :
    scan total c tail = .ok (name c tail) := by
  apply Text.of_isAlpha (P := fun c => scan total c tail = .ok (name c tail)) _ _ h
  · intro n
    fin_cases n <;> rfl
  · intro n
    fin_cases n <;> rfl

theorem isBlank_letter {c : Char} (h : c.isAlpha = true) : Text.isBlank c = false :=
  Text.of_isAlpha (P := fun c => Text.isBlank c = false) (by decide) (by decide) h

theorem isNamePart_of_isAlpha {c : Char} (h : c.isAlpha = true) : isNamePart c = true := by
  simp [isNamePart, Char.isAlphanum, h]

theorem isNamePart_of_isDigit {c : Char} (h : c.isDigit = true) : isNamePart c = true := by
  simp [isNamePart, Char.isAlphanum, h]

theorem isNamePart_of_isNameStart {c : Char} (h : isNameStart c = true) : isNamePart c = true := by
  simp only [isNameStart, Bool.or_eq_true] at h
  simp only [isNamePart, Char.isAlphanum, Bool.or_eq_true]
  exact h.imp_left Or.inl

variable (total) in
theorem leads_name {c : Char} {tail : List Char} (letter : c.isAlpha = true)
    (parts : ∀ c ∈ tail, isNamePart c = true) (apart : ∀ c ∈ rest.head?, isNamePart c = false) :
    Leads total (c :: tail ++ rest)
      (if namesCell (c :: tail) && firstVisible rest != some '(' then
        .cell (String.ofList (c :: tail)) else .name (String.ofList (c :: tail))) rest := by
  have run := Text.run_append parts apart
  refine ⟨c, tail ++ rest, _, rfl, isBlank_letter letter, scan_letter letter _, ?_, run.2⟩
  simp only [name, run]

theorem namesCell_append {letters digits : List Char} (named : letters ≠ [])
    (alpha : ∀ c ∈ letters, c.isAlpha = true) (numbered : digits ≠ [])
    (digit : ∀ c ∈ digits, c.isDigit = true) : namesCell (letters ++ digits) = true := by
  have stop : ∀ c ∈ digits.head?, c.isAlpha = false := fun c hc =>
    Text.of_isDigit (P := fun c => c.isAlpha = false) (by decide)
      (digit c (List.mem_of_mem_head? hc))
  have shorter : digits.length < (letters ++ digits).length := by
    rw [List.length_append]
    exact Nat.lt_add_of_pos_left (List.length_pos_iff.mpr named)
  simp only [namesCell, (Text.run_append alpha stop).2, decide_eq_true shorter,
    List.isEmpty_eq_false_iff.mpr numbered, List.all_eq_true.mpr digit]
  rfl

variable (total) in
/-- Letters and digits name a cell unless an opening parenthesis follows. -/
theorem leads_cell {letters digits : List Char} (named : letters ≠ [])
    (alpha : ∀ c ∈ letters, c.isAlpha = true) (numbered : digits ≠ [])
    (digit : ∀ c ∈ digits, c.isDigit = true) (apart : ∀ c ∈ rest.head?, isNamePart c = false)
    (visible : firstVisible rest ≠ some '(') :
    Leads total (letters ++ digits ++ rest) (.cell (String.ofList (letters ++ digits))) rest := by
  have cell := namesCell_append named alpha numbered digit
  obtain ⟨c, letters, rfl⟩ := List.exists_cons_of_ne_nil named
  obtain ⟨letter, alpha⟩ := List.forall_mem_cons.mp alpha
  have parts : ∀ c ∈ letters ++ digits, isNamePart c = true :=
    List.forall_mem_append.mpr ⟨fun c hc => isNamePart_of_isAlpha (alpha c hc),
      fun c hc => isNamePart_of_isDigit (digit c hc)⟩
  have leads := leads_name total letter parts apart
  rwa [← List.cons_append, cell, bne_iff_ne.mpr visible, Bool.and_self, if_pos rfl] at leads

theorem leads_label (a : Address) (follows : Follows rest) :
    Leads total (a.label.toList ++ rest) (.cell a.label) rest := by
  have alpha (c : Char) (hc : c ∈ Column.numeral (a.col + 1)) : c.isAlpha = true :=
    Column.isAlpha_of_mem_numeral hc
  have digit (c : Char) (hc : c ∈ Nat.toDigits 10 (a.row + 1)) : c.isDigit = true :=
    Address.isDigit_of_mem_toDigits hc
  have leads := leads_cell total (Column.numeral_ne_nil (Nat.succ_ne_zero a.col)) alpha
    Nat.toDigits_ne_nil digit (fun c hc => not_namePart_of_goesOn (follows.apart c hc))
    follows.visible
  rwa [← Address.toList_label, String.ofList_toList] at leads

end Lexeme

namespace Tokens

variable {total : Nat} {rest : List Char}

theorem scan_nil : scan total [] = .done := by
  rw [scan]
  rfl

theorem scan_blank {c : Char} (h : Text.isBlank c = true) (cs : List Char) :
    scan total (c :: cs) = scan total cs := by
  rw [scan, scan, Text.trimLeft_cons_of_blank h]

theorem scan_of_leads {cs : List Char} {t : Token} (h : Lexeme.Leads total cs t rest) :
    scan total cs = .next t (scan total rest) := by
  obtain ⟨c, tail, lexeme, rfl, visible, found, rfl, rfl⟩ := h
  rw [scan, Text.trimLeft_cons_of_visible visible]
  simp only [found]

theorem scan_punctuation (p : Punctuation) :
    scan total (p.symbol :: rest) = .next (.punctuation p) (scan total rest) :=
  scan_of_leads (by cases p <;> exact ⟨_, _, _, rfl, rfl, rfl, rfl, rfl⟩)

theorem scan_operator (op : Operator) :
    scan total (op.symbol :: rest) = .next (.operator op) (scan total rest) :=
  scan_of_leads (by cases op <;> exact ⟨_, _, _, rfl, rfl, rfl, rfl, rfl⟩)

theorem scan_spaced_operator (op : Operator) :
    scan total ((Formula.spaced op.symbol.toString).toList ++ rest) =
      .next (.operator op) (scan total rest) := by
  have text : (Formula.spaced op.symbol.toString).toList ++ rest =
      ' ' :: op.symbol :: ' ' :: rest := by
    cases op <;> rfl
  rw [text, scan_blank rfl, scan_operator, scan_blank rfl]

/-- The blank behind a comparison keeps it from being read as a longer one. -/
theorem scan_spaced_comparator (cmp : Comparator) :
    scan total ((Formula.spaced cmp.symbol).toList ++ rest) =
      .next (.comparator cmp) (scan total rest) := by
  have text : (Formula.spaced cmp.symbol).toList ++ rest =
      ' ' :: (cmp.symbol.toList ++ ' ' :: rest) := by
    cases cmp <;> rfl
  have leads : Lexeme.Leads total (cmp.symbol.toList ++ ' ' :: rest) (.comparator cmp)
      (' ' :: rest) := by
    cases cmp <;> exact ⟨_, _, _, rfl, rfl, rfl, rfl, rfl⟩
  rw [text, scan_blank rfl, scan_of_leads leads, scan_blank rfl]

theorem scan_comma : scan total (", ".toList ++ rest) =
    .next (.punctuation .comma) (scan total rest) := by
  change scan total (Punctuation.comma.symbol :: ' ' :: rest) = _
  rw [scan_punctuation, scan_blank rfl]

theorem scan_number (total : Nat) {x : Float} (finite : x.isFinite = true) (h : ¬ x < 0)
    (follows : Follows rest) :
    ∃ y, Numeral.Alike y x ∧ scan total ((Numeral.textOf x).toList ++ rest) =
      .next (.number y) (scan total rest) := by
  obtain ⟨d, written, same⟩ := Numeral.written_textOf finite h
  have read : d.toFloat.isFinite = true := same.isFinite.trans finite
  exact ⟨d.toFloat, same,
    scan_of_leads (Lexeme.leads_number follows.apart written.decimal?_eq read)⟩

theorem scan_quoted (s : String) (follows : Follows rest) :
    scan total ((Formula.quoted s).toList ++ rest) = .next (.text s) (scan total rest) :=
  scan_of_leads
    (Lexeme.leads_quoted s fun c hc => Lexeme.ne_of_goesOn (follows.apart c hc) rfl)

theorem scan_label (a : Address) (follows : Follows rest) :
    scan total (a.label.toList ++ rest) = .next (.cell a.label) (scan total rest) :=
  scan_of_leads (Lexeme.leads_label a follows)

theorem scan_reduction (op : Reduction) :
    scan total ((op.name ++ "(").toList ++ rest) =
      .next (.name op.name) (.next (.punctuation .opening) (scan total rest)) := by
  rw [← scan_punctuation]
  apply scan_of_leads
  cases op with
  | sum => exact ⟨_, _, _, rfl, rfl, Lexeme.scan_letter rfl _, rfl, rfl⟩
  | product => exact ⟨_, _, _, rfl, rfl, Lexeme.scan_letter rfl _, rfl, rfl⟩
  | difference => exact ⟨_, _, _, rfl, rfl, Lexeme.scan_letter rfl _, rfl, rfl⟩
  | average => exact ⟨_, _, _, rfl, rfl, Lexeme.scan_letter rfl _, rfl, rfl⟩
  | join => exact ⟨_, _, _, rfl, rfl, Lexeme.scan_letter rfl _, rfl, rfl⟩

theorem scan_choice :
    scan total ("IF(".toList ++ rest) =
      .next (.name "IF") (.next (.punctuation .opening) (scan total rest)) := by
  rw [← scan_punctuation]
  exact scan_of_leads ⟨_, _, _, rfl, rfl, Lexeme.scan_letter rfl _, rfl, rfl⟩

end Tokens

end ReactiveSheet
