import ReactiveSheet.Proofs.Formula.Levels
import ReactiveSheet.Proofs.Formula.Syntax

/-!
What is scanned is spelled.

A token `Stands` for a terminal. The text of a lexeme spells the terminal that its token stands for,
so a text splits into the terminals that its tokens stand for, if all of them stand for one.
-/

namespace ReactiveSheet

open Terminal (Spelled Splits)

/-- The terminal that a token stands for. Names that are no names of functions stand for none, nor
do those of cells that cannot exist. -/
inductive Stands : Token → Terminal → Prop where
  | number (n : Float) : Stands (.number n) (.number n)
  | text (s : String) : Stands (.text s) (.text s)
  | cell {name : String} {a : Address} (reads : Address.ofText name = .ok a) :
    Stands (.cell name) (.cell a)
  | reducer {name : String} {op : Reduction} (other : Text.lowered name.toList ≠ ['i', 'f'])
      (known : Reduction.ofName? name = some op) : Stands (.name name) (.reducer op)
  | conditional {name : String} (known : Text.lowered name.toList = ['i', 'f']) :
    Stands (.name name) .conditional
  | operator (op : Operator) : Stands (.operator op) (.operator op)
  | comparator (cmp : Comparator) : Stands (.comparator cmp) (.comparator cmp)
  | punctuation (p : Punctuation) : Stands (.punctuation p) (.punctuation p)

/-- The first tokens stand for these terminals, and the others are left. -/
inductive Spans : Tokens → List Terminal → Tokens → Prop where
  | nil (ts : Tokens) : Spans ts [] ts
  | cons {t : Token} {x : Terminal} {xs : List Terminal} {ts ts' : Tokens} (first : Stands t x)
      (others : Spans ts xs ts') : Spans (.next t ts) (x :: xs) ts'

theorem Text.capitalsOf_eq {c : Char} (h : Lexeme.isNamePart c = true) :
    capitalsOf c = [c.toUpper] := by
  have absent : asciiCapitals.lookup c = none := by
    refine List.lookup_eq_none_iff.mpr fun p hp => ?_
    have outside : ∀ p ∈ asciiCapitals, Lexeme.isNamePart p.1 = false := by
      simp only [asciiCapitals, List.forall_mem_cons, List.not_mem_nil, false_imp_iff,
        implies_true, and_true]
      decide
    refine bne_iff_ne.mpr ?_
    rintro rfl
    exact Bool.noConfusion (h.symm.trans (outside p hp))
  rw [capitalsOf, absent, Option.getD_none]

theorem Text.capitals_eq {cs : List Char} (h : ∀ c ∈ cs, Lexeme.isNamePart c = true) :
    capitals cs = cs.map Char.toUpper := by
  induction cs with
  | nil => rfl
  | cons c cs ih =>
    obtain ⟨first, others⟩ := List.forall_mem_cons.mp h
    rw [capitals, List.flatMap_cons, capitalsOf_eq first, ← capitals, ih others]
    rfl

theorem Reduction.mem_spellings {op : Reduction} {text : String} :
    names.lookup text = some op ↔ text ∈ op.spellings := by
  constructor
  · intro h
    have listed : ∀ p ∈ names, p.1 ∈ p.2.spellings := by
      simp only [names, List.forall_mem_cons, List.not_mem_nil, false_imp_iff, implies_true,
        and_true]
      decide
    obtain ⟨before, after, split, -⟩ := List.lookup_eq_some_iff.mp h
    exact listed (text, op) (split ▸ List.mem_append_right before List.mem_cons_self)
  · have found (op : Reduction) : ∀ text ∈ op.spellings, names.lookup text = some op := by
      cases op <;> simp only [spellings, List.forall_mem_cons, List.not_mem_nil, false_imp_iff,
        implies_true, and_true] <;> decide
    exact found op text

theorem Comparator.mem_spellings {cmp : Comparator} {text : String} :
    ofSymbol? text = some cmp ↔ text ∈ cmp.spellings := by
  constructor
  · intro h
    unfold ofSymbol? at h
    split_ifs at h
    all_goals
      obtain rfl := Option.some.inj h
      simp_all [spellings, or_comm]
  · have found (cmp : Comparator) : ∀ text ∈ cmp.spellings, ofSymbol? text = some cmp := by
      cases cmp <;> simp only [spellings, List.forall_mem_cons, List.not_mem_nil, false_imp_iff,
        implies_true, and_true] <;> decide
    exact found cmp text

theorem Punctuation.symbol_of_ofSymbol? {c : Char} {p : Punctuation} (h : ofSymbol? c = some p) :
    p.symbol = c := by
  unfold ofSymbol? at h
  split at h
  · exact Option.some.inj h ▸ rfl
  · exact Option.some.inj h ▸ rfl
  · exact Option.some.inj h ▸ rfl
  · exact Option.some.inj h ▸ rfl
  · exact nomatch h

theorem Operator.symbol_of_ofSymbol? {c : Char} {op : Operator} (h : ofSymbol? c = some op) :
    op.symbol = c := by
  unfold ofSymbol? at h
  split at h
  · exact Option.some.inj h ▸ rfl
  · exact Option.some.inj h ▸ rfl
  · exact Option.some.inj h ▸ rfl
  · exact Option.some.inj h ▸ rfl
  · exact nomatch h

theorem lowered_eq_if_iff {cs : List Char} :
    Text.lowered cs = ['i', 'f'] ↔ cs.map Char.toUpper = ['I', 'F'] := by
  constructor
  · intro h
    have capitals : (Text.lowered cs).map Char.toUpper = cs.map Char.toUpper := by
      rw [Text.lowered, List.map_map]
      exact List.map_congr_left fun c _ => Char.toUpper_toLower_eq_toUpper c
    rw [← capitals, h]
    rfl
  · intro h
    have small : (cs.map Char.toUpper).map Char.toLower = Text.lowered cs := by
      rw [Text.lowered, List.map_map]
      exact List.map_congr_left fun c _ => Char.toLower_toUpper_eq_toLower c
    rw [← small, h]
    rfl

namespace Lexeme

variable {c : Char} {tail rest : List Char} {t : Token} {x : Terminal}

theorem before_append_rest {cs : List Char} (h : rest <:+ cs) : before cs rest ++ rest = cs := by
  obtain ⟨piece, rfl⟩ := h
  rw [before_append]

theorem eq_quoted_append {cs content rest : List Char} (h : quoted? cs = some (content, rest)) :
    '"' :: cs = (Formula.quoted (String.ofList content)).toList ++ rest := by
  rw [Formula.quoted, String.toList_ofList, String.toList_ofList, List.append_assoc,
    List.cons_append]
  refine congrArg _ ?_
  fun_induction quoted? cs generalizing content with
  | case1 => cases h
  | case2 cs ih =>
    obtain ⟨⟨s, r⟩, hs, eq⟩ := Option.map_eq_some_iff.mp h
    obtain ⟨rfl, rfl⟩ := Prod.mk.inj eq
    rw [ih hs]
    rfl
  | case3 cs =>
    obtain ⟨rfl, rfl⟩ := Prod.mk.inj (Option.some.inj h)
    rfl
  | case4 c cs _ other ih =>
    obtain ⟨⟨s, r⟩, hs, eq⟩ := Option.map_eq_some_iff.mp h
    obtain ⟨rfl, rfl⟩ := Prod.mk.inj eq
    rw [ih hs, List.flatMap_cons, if_neg other]
    rfl

theorem of_namesCell {cs : List Char} (h : namesCell cs = true) :
    ∃ letters digits, cs = letters ++ digits ∧ letters ≠ [] ∧ (∀ c ∈ letters, c.isAlpha = true) ∧
      digits ≠ [] ∧ ∀ c ∈ digits, c.isDigit = true := by
  simp only [namesCell, Bool.and_eq_true, decide_eq_true_eq, Bool.not_eq_true',
    List.isEmpty_eq_false_iff, List.all_eq_true] at h
  obtain ⟨⟨shorter, numbered⟩, digit⟩ := h
  refine ⟨cs.takeWhile Char.isAlpha, cs.dropWhile Char.isAlpha,
    List.takeWhile_append_dropWhile.symm, ?_, fun c hc => List.mem_takeWhile_imp hc, numbered,
    digit⟩
  intro none
  have all := List.takeWhile_append_dropWhile (p := Char.isAlpha) (l := cs)
  rw [none, List.nil_append] at all
  rw [all] at shorter
  exact Nat.lt_irrefl _ shorter

theorem name_spells (start : isNameStart c = true) (stands : Stands (name c tail).token x) :
    ∃ piece, c :: tail = piece ++ (name c tail).rest ∧ x.Spelled piece := by
  let piece := c :: tail.takeWhile isNamePart
  have first := isNamePart_of_isNameStart start
  have parts : ∀ c ∈ piece, isNamePart c = true :=
    List.forall_mem_cons.mpr ⟨first, fun c hc => List.mem_takeWhile_imp hc⟩
  refine ⟨piece, ?_, ?_⟩
  · exact congrArg (c :: ·) List.takeWhile_append_dropWhile.symm
  · unfold name at stands
    dsimp only at stands
    split at stands
    · rename_i cell
      obtain ⟨letters, digits, text, named, alpha, numbered, digit⟩ :=
        of_namesCell (Bool.and_eq_true_iff.mp cell).1
      cases stands with
      | cell reads =>
        rw [Address.ofText, String.toList_ofList, text] at reads
        rw [show piece = _ from text]
        exact .cell named alpha numbered digit reads
    · cases stands with
      | reducer other known =>
        rw [Reduction.ofName?, String.toList_ofList, Text.capitals_eq parts] at known
        exact .reducer (Reduction.mem_spellings.mp known) String.toList_ofList.symm
      | conditional known =>
        rw [String.toList_ofList] at known
        exact .conditional (lowered_eq_if_iff.mp known)

theorem Scanned.spells (h : Scanned c tail t rest) (stands : Stands t x) :
    ∃ piece, c :: tail = piece ++ rest ∧ x.Spelled piece := by
  cases h with
  | punctuation symbol =>
    cases stands
    exact ⟨[c], rfl, Punctuation.symbol_of_ofSymbol? symbol ▸ .punctuation _⟩
  | operator symbol =>
    cases stands
    exact ⟨[c], rfl, Operator.symbol_of_ofSymbol? symbol ▸ .operator _⟩
  | comparator known split =>
    cases stands
    have spelled := Spelled.comparator (Comparator.mem_spellings.mp known)
    rw [String.toList_ofList] at spelled
    exact ⟨_, split, spelled⟩
  | text quote closes =>
    cases stands
    subst quote
    exact ⟨_, eq_quoted_append closes, .text _⟩
  | number start read finite =>
    have first : c.isDigit = true ∨ c = '.' := by
      simp only [startsNumber, Bool.or_eq_true, Bool.and_eq_true, decide_eq_true_eq] at start
      exact start.imp_right And.left
    rw [Numeral.float?_of_start first] at read
    obtain ⟨d, reads, rfl⟩ := Option.map_eq_some_iff.mp read
    cases stands
    refine ⟨c :: before tail (afterNumber c tail), ?_, .number reads finite⟩
    rw [List.cons_append, before_append_rest (afterNumber_suffix c tail)]
  | name start => exact name_spells start stands

end Lexeme

/-- A text splits into the terminals that all its tokens stand for. -/
theorem splits_of_spans {total : Nat} {cs : List Char} {xs : List Terminal}
    (h : Spans (Tokens.scan total cs) xs .done) : Splits cs xs := by
  have blanks (cs : List Char) : ∀ c ∈ cs.takeWhile Text.isBlank, Text.isBlank c = true :=
    fun c hc => List.mem_takeWhile_imp hc
  have split (cs : List Char) : cs = cs.takeWhile Text.isBlank ++ Text.trimLeft cs :=
    List.takeWhile_append_dropWhile.symm
  fun_induction Tokens.scan total cs generalizing xs with
  | case1 cs visible =>
    cases h
    have all := split cs
    rw [visible, List.append_nil] at all
    exact all ▸ .done (blanks cs)
  | case2 => cases h
  | case3 cs c tail visible lexeme found ih =>
    cases h with
    | cons first others =>
      obtain ⟨piece, text, spelled⟩ := (Lexeme.scanned_scan found).spells first
      have next := Splits.next (blanks cs) spelled (ih others)
      rwa [← text, ← visible, ← split cs] at next

end ReactiveSheet
