import ReactiveSheet.Proofs.Formula.Spelling

/-!
What is spelled is scanned.

A text that splits into terminals could be scanned otherwise only where two of them run into one
another, as a number and a name would. `Meets` says which terminals may come one after another
without that, and all terminals of a derivation come so.
-/

namespace ReactiveSheet

open Terminal (Spelled Splits)

theorem Lexeme.isBlank_of_goesOn {c : Char} (h : goesOn c = true) : Text.isBlank c = false := by
  simp only [goesOn, isNamePart, Char.isAlphanum, Bool.or_eq_true, decide_eq_true_eq] at h
  rcases h with (((letter | digit) | rfl) | rfl) | rfl
  · exact isBlank_letter letter
  · exact Text.of_isDigit (P := fun c => Text.isBlank c = false) (by decide) digit
  · rfl
  · rfl
  · rfl

namespace Terminal

/-- Comes between operands or after one. -/
def Joins : Terminal → Prop
  | .operator _ => True
  | .comparator _ => True
  | .punctuation p => p ≠ .opening
  | _ => False

/-- The second terminal does not run into the first. -/
def Meets : Terminal → Terminal → Prop
  | .number _, y => y.Joins
  | .text _, y => y.Joins
  | .cell _, y => y.Joins
  | .reducer _, y => y = .punctuation .opening
  | .conditional, y => y = .punctuation .opening
  | .comparator _, y => ∀ cmp, y ≠ .comparator cmp
  | .operator _, _ => True
  | .punctuation _, _ => True

variable {x : Terminal} {xs : List Terminal} {cs rest : List Char}

theorem isAlpha_of_map_toUpper {name : List Char} (same : cs.map Char.toUpper = name)
    (h : ∀ c ∈ name, c.isAlpha = true) : ∀ c ∈ cs, c.isAlpha = true := by
  intro c hc
  rw [← Char.isAlpha_toUpper_eq_isAlpha]
  exact h _ (same ▸ List.mem_map_of_mem hc)

theorem of_mem_spellings {op : Reduction} {name : String} (h : name ∈ op.spellings) :
    name.toList ≠ [] ∧ name.toList ≠ ['I', 'F'] ∧ ∀ c ∈ name.toList, c.isAlpha = true := by
  have all (op : Reduction) : ∀ name ∈ op.spellings,
      name.toList ≠ [] ∧ name.toList ≠ ['I', 'F'] ∧ name.toList.all Char.isAlpha = true := by
    cases op <;> simp only [Reduction.spellings, List.forall_mem_cons, List.not_mem_nil,
      false_imp_iff, implies_true, and_true] <;> decide
  obtain ⟨some, other, alpha⟩ := all op name h
  exact ⟨some, other, List.all_eq_true.mp alpha⟩

theorem letters_of_reducer {op : Reduction} (h : (Terminal.reducer op).Spelled cs) :
    cs ≠ [] ∧ ∀ c ∈ cs, c.isAlpha = true := by
  cases h with
  | reducer known same =>
    obtain ⟨some, -, alpha⟩ := of_mem_spellings known
    refine ⟨?_, isAlpha_of_map_toUpper same alpha⟩
    rintro rfl
    exact some same.symm

theorem letters_of_conditional (h : Terminal.conditional.Spelled cs) :
    cs ≠ [] ∧ ∀ c ∈ cs, c.isAlpha = true := by
  cases h with
  | conditional same =>
    refine ⟨?_, isAlpha_of_map_toUpper same (List.all_eq_true.mp rfl)⟩
    rintro rfl
    exact nomatch same

theorem Spelled.first (h : x.Spelled cs) : ∃ c tail, cs = c :: tail ∧
    ((∀ cmp, x ≠ .comparator cmp) → c ≠ '=' ∧ c ≠ '>') := by
  have letter {c : Char} (h : c.isAlpha = true) : c ≠ '=' ∧ c ≠ '>' :=
    Text.of_isAlpha (P := fun c => c ≠ '=' ∧ c ≠ '>') (by decide) (by decide) h
  have word (h : cs ≠ [] ∧ ∀ c ∈ cs, c.isAlpha = true) :
      ∃ c tail, cs = c :: tail ∧ c ≠ '=' ∧ c ≠ '>' := by
    obtain ⟨some, alpha⟩ := h
    obtain ⟨c, tail, rfl⟩ := List.exists_cons_of_ne_nil some
    exact ⟨c, tail, rfl, letter (alpha c List.mem_cons_self)⟩
  cases x with
  | number n =>
    cases h with
    | number reads finite =>
      obtain ⟨c, tail, rfl, start⟩ := Numeral.start_of_decimal? reads
      refine ⟨c, tail, rfl, fun _ => ?_⟩
      exact Numeral.of_start (P := fun c => c ≠ '=' ∧ c ≠ '>') (by decide) (by decide)
        (start.imp_right And.left)
  | text s =>
    cases h
    exact ⟨'"', _, String.toList_ofList, fun _ => by decide⟩
  | cell a =>
    cases h with
    | cell named alpha numbered digit reads =>
      obtain ⟨c, letters, rfl⟩ := List.exists_cons_of_ne_nil named
      exact ⟨c, _, rfl, fun _ => letter (alpha c List.mem_cons_self)⟩
  | reducer op =>
    obtain ⟨c, tail, text, apart⟩ := word (letters_of_reducer h)
    exact ⟨c, tail, text, fun _ => apart⟩
  | conditional =>
    obtain ⟨c, tail, text, apart⟩ := word (letters_of_conditional h)
    exact ⟨c, tail, text, fun _ => apart⟩
  | operator op =>
    cases h
    exact ⟨op.symbol, [], rfl, fun _ => by cases op <;> decide⟩
  | comparator cmp =>
    cases h with
    | comparator known =>
      rename_i symbol
      have some : symbol.toList ≠ [] := by
        have all (cmp : Comparator) : ∀ symbol ∈ cmp.spellings, symbol.toList ≠ [] := by
          cases cmp <;> simp only [Comparator.spellings, List.forall_mem_cons, List.not_mem_nil,
            false_imp_iff, implies_true, and_true] <;> decide
        exact all cmp symbol known
      obtain ⟨c, tail, text⟩ := List.exists_cons_of_ne_nil some
      exact ⟨c, tail, text, fun other => absurd rfl (other cmp)⟩
  | punctuation p =>
    cases h
    exact ⟨p.symbol, [], rfl, fun _ => by cases p <;> decide⟩

theorem Spelled.joins {c : Char} {tail : List Char} (h : x.Spelled (c :: tail)) (joins : x.Joins) :
    Lexeme.goesOn c = false ∧ Text.isBlank c = false ∧ c ≠ '(' := by
  cases x with
  | operator op =>
    cases h
    cases op <;> decide
  | comparator cmp =>
    generalize text : c :: tail = cs at h
    cases h with
    | comparator known =>
      have all (cmp : Comparator) : ∀ symbol ∈ cmp.spellings, (symbol.toList.head?.all fun c =>
          !Lexeme.goesOn c && !Text.isBlank c && c != '(') = true := by
        cases cmp <;> simp only [Comparator.spellings, List.forall_mem_cons, List.not_mem_nil,
          false_imp_iff, implies_true, and_true] <;> decide
      simpa [← text, and_assoc] using all cmp _ known
  | punctuation p =>
    cases h
    cases p with
    | opening => exact absurd rfl joins
    | _ => decide
  | _ => exact joins.elim

theorem Splits.head {P : Char → Prop} (h : Splits cs xs)
    (blank : ∀ c, Text.isBlank c = true → P c)
    (first : ∀ y ∈ xs.head?, ∀ c tail, y.Spelled (c :: tail) → P c) : ∀ c ∈ cs.head?, P c := by
  intro c hc
  cases h with
  | done all => exact blank c (all c (List.mem_of_mem_head? hc))
  | @next blanks piece rest y ys all spelled others =>
    cases blanks with
    | cons b blanks =>
      obtain rfl := Option.some.inj hc
      exact blank b (all b List.mem_cons_self)
    | nil =>
      obtain ⟨d, tail, rfl, -⟩ := spelled.first
      obtain rfl := Option.some.inj hc
      exact first y rfl d tail spelled

theorem Splits.joins (h : Splits cs xs) (joins : ∀ y ∈ xs.head?, y.Joins) :
    (∀ c ∈ cs.head?, Lexeme.goesOn c = false) ∧ Lexeme.firstVisible cs ≠ some '(' := by
  constructor
  · refine h.head (fun c blank => ?_) fun y hy c tail spelled => (spelled.joins (joins y hy)).1
    exact Bool.eq_false_iff.mpr fun on => Bool.noConfusion
      (blank.symm.trans (Lexeme.isBlank_of_goesOn on))
  · rw [Lexeme.firstVisible]
    cases h with
    | done all =>
      have none := Text.trimLeft_append all []
      rw [List.append_nil] at none
      rw [none]
      exact fun h => nomatch h
    | @next blanks piece rest y ys all spelled others =>
      obtain ⟨d, tail, rfl, -⟩ := spelled.first
      obtain ⟨-, visible, closed⟩ := spelled.joins (joins y rfl)
      rw [Text.trimLeft_append all, List.cons_append, Text.trimLeft_cons_of_visible visible]
      exact fun here => closed (Option.some.inj here)

end Terminal

namespace Lexeme

variable {total : Nat} {x : Terminal} {xs : List Terminal} {piece rest : List Char}

theorem namesCell_letters {cs : List Char} (alpha : ∀ c ∈ cs, c.isAlpha = true) :
    namesCell cs = false := by
  have none : cs.dropWhile Char.isAlpha = [] := List.dropWhile_eq_nil_iff.mpr alpha
  simp [namesCell, none]

theorem leads_letters (h : piece ≠ [] ∧ ∀ c ∈ piece, c.isAlpha = true)
    (apart : ∀ c ∈ rest.head?, isNamePart c = false) :
    Leads total (piece ++ rest) (.name (String.ofList piece)) rest := by
  obtain ⟨named, alpha⟩ := h
  have letters := namesCell_letters alpha
  obtain ⟨c, tail, rfl⟩ := List.exists_cons_of_ne_nil named
  have parts : ∀ c ∈ tail, isNamePart c = true := fun d hd =>
    isNamePart_of_isAlpha (alpha d (List.mem_cons_of_mem c hd))
  have leads := leads_name total (alpha c List.mem_cons_self) parts apart
  rwa [letters, Bool.false_and, if_neg Bool.false_ne_true] at leads

def Short (c : Char) (rest : List Char) : Prop :=
  ∀ d ∈ rest.head?, d = '=' ∨ d = '>' → Comparator.ofSymbol? (String.ofList [c, d]) = none

theorem short_of_apart (c : Char) (apart : ∀ d ∈ rest.head?, d ≠ '=' ∧ d ≠ '>') :
    Short c rest := by
  intro d hd longer
  obtain ⟨equal, greater⟩ := apart d hd
  exact (longer.elim equal greater).elim

theorem comparator_of_short {c : Char} (short : Short c rest) :
    comparator total c rest = shortComparator total c rest := by
  cases rest with
  | nil => rfl
  | cons d rest =>
    rw [comparator]
    split
    · rename_i longer
      simp only [Bool.or_eq_true, decide_eq_true_eq] at longer
      rw [short d rfl longer]
    · rfl

/-- A comparison of one character is taken for a longer one only if it goes on. -/
theorem leads_comparator {cmp : Comparator} {symbol : String} (known : symbol ∈ cmp.spellings)
    (apart : ∀ d ∈ rest.head?, d ≠ '=' ∧ d ≠ '>') :
    Leads total (symbol.toList ++ rest) (.comparator cmp) rest := by
  have short {c : Char} (visible : Text.isBlank c = false)
      (scanned : scan total c rest = comparator total c rest)
      (single : shortComparator total c rest =
        .ok ⟨.comparator cmp, rest, List.suffix_refl _⟩) :
      Leads total (c :: rest) (.comparator cmp) rest :=
    ⟨c, rest, _, rfl, visible,
      scanned.trans ((comparator_of_short (short_of_apart c apart)).trans single), rfl, rfl⟩
  cases cmp <;> simp only [Comparator.spellings, List.mem_cons, List.not_mem_nil, or_false] at known
  case greater =>
    subst known
    exact short rfl rfl rfl
  case less =>
    subst known
    exact short rfl rfl rfl
  case equal =>
    rcases known with rfl | rfl
    · exact short rfl rfl rfl
    · exact ⟨_, _, _, rfl, rfl, rfl, rfl, rfl⟩
  case notEqual =>
    rcases known with rfl | rfl
    · exact ⟨_, _, _, rfl, rfl, rfl, rfl, rfl⟩
    · exact ⟨_, _, _, rfl, rfl, rfl, rfl, rfl⟩
  case atLeast =>
    subst known
    exact ⟨_, _, _, rfl, rfl, rfl, rfl, rfl⟩
  case atMost =>
    subst known
    exact ⟨_, _, _, rfl, rfl, rfl, rfl, rfl⟩

variable (total) in
theorem leads_of_spelled (spelled : x.Spelled piece) (others : Splits rest xs)
    (meets : ∀ y ∈ xs.head?, x.Meets y) :
    ∃ t, Stands t x ∧ Leads total (piece ++ rest) t rest := by
  -- the word of a call ends where the parenthesis or a blank stands
  have opening (h : ∀ y ∈ xs.head?, y = .punctuation .opening) :
      ∀ c ∈ rest.head?, isNamePart c = false := by
    refine others.head (fun c blank => ?_) fun y hy c tail spelled => ?_
    · exact Bool.eq_false_iff.mpr fun part => Bool.noConfusion
        (blank.symm.trans (isBlank_of_goesOn (by simp [goesOn, part])))
    · rw [h y hy] at spelled
      cases spelled
      rfl
  cases x with
  | number n =>
    cases spelled with
    | number reads finite =>
      exact ⟨_, .number _, leads_number (others.joins meets).1 reads finite⟩
  | text s =>
    cases spelled
    exact ⟨_, .text s, leads_quoted s fun c hc => ne_of_goesOn ((others.joins meets).1 c hc) rfl⟩
  | cell a =>
    cases spelled with
    | cell named alpha numbered digit reads =>
      obtain ⟨apart, visible⟩ := others.joins meets
      refine ⟨_, .cell ?_, leads_cell total named alpha numbered digit
        (fun c hc => not_namePart_of_goesOn (apart c hc)) visible⟩
      rwa [Address.ofText, String.toList_ofList]
  | reducer op =>
    have letters := Terminal.letters_of_reducer spelled
    refine ⟨_, ?_, leads_letters letters (opening meets)⟩
    cases spelled with
    | reducer known same =>
      have parts := fun c hc => isNamePart_of_isAlpha (letters.2 c hc)
      refine .reducer ?_ ?_
      · rw [String.toList_ofList, Ne, lowered_eq_if_iff, same]
        exact (Terminal.of_mem_spellings known).2.1
      · rw [Reduction.ofName?, String.toList_ofList, Text.capitals_eq parts, same,
          String.ofList_toList]
        exact Reduction.mem_spellings.mpr known
  | conditional =>
    have letters := Terminal.letters_of_conditional spelled
    refine ⟨_, ?_, leads_letters letters (opening meets)⟩
    cases spelled with
    | conditional same =>
      refine .conditional ?_
      rw [String.toList_ofList]
      exact lowered_eq_if_iff.mpr same
  | operator op =>
    cases spelled
    exact ⟨_, .operator op, by cases op <;> exact ⟨_, _, _, rfl, rfl, rfl, rfl, rfl⟩⟩
  | comparator cmp =>
    cases spelled with
    | comparator known =>
      refine ⟨_, .comparator cmp, leads_comparator known (others.head (fun c blank => ?_) ?_)⟩
      · constructor
        · rintro rfl
          exact absurd blank (by decide)
        · rintro rfl
          exact absurd blank (by decide)
      · intro y hy c tail spelled
        obtain ⟨d, tail', text, apart⟩ := spelled.first
        obtain ⟨rfl, rfl⟩ := List.cons.inj text
        exact apart (meets y hy)
  | punctuation p =>
    cases spelled
    exact ⟨_, .punctuation p, by cases p <;> exact ⟨_, _, _, rfl, rfl, rfl, rfl, rfl⟩⟩

end Lexeme

namespace Tokens

theorem scan_blanks (total : Nat) {blanks : List Char}
    (h : ∀ c ∈ blanks, Text.isBlank c = true) (cs : List Char) :
    scan total (blanks ++ cs) = scan total cs := by
  induction blanks with
  | nil => rfl
  | cons b blanks ih =>
    obtain ⟨blank, h⟩ := List.forall_mem_cons.mp h
    rw [List.cons_append, scan_blank blank, ih h]

/-- The tokens of a text stand for the terminals that it splits into, if none of these runs into
the next. -/
theorem spans_scan (total : Nat) {cs : List Char} {xs : List Terminal} (h : Splits cs xs)
    (chain : xs.IsChain Terminal.Meets) : Spans (scan total cs) xs .done := by
  induction h with
  | @done blanks blank =>
    have none := scan_blanks total blank []
    rw [List.append_nil, scan_nil] at none
    rw [none]
    exact .nil .done
  | next blank spelled others ih =>
    obtain ⟨meets, chain⟩ := List.isChain_cons.mp chain
    obtain ⟨t, stands, leads⟩ := Lexeme.leads_of_spelled total spelled others meets
    rw [scan_blanks total blank, scan_of_leads leads]
    exact .cons stands (ih chain)

end Tokens

namespace Derivation

open Terminal (Joins Meets)

/-- What may come behind an operand. -/
structure Resumes (xs : List Terminal) : Prop where
  chain : xs.IsChain Meets
  joins : ∀ y ∈ xs.head?, y.Joins

variable {x : Terminal} {xs ys : List Terminal}

theorem isChain_cons (meets : ∀ y, x.Meets y) (h : xs.IsChain Meets) : (x :: xs).IsChain Meets :=
  List.isChain_cons.mpr ⟨fun y _ => meets y, h⟩

theorem Resumes.behind (h : Resumes xs) (meets : ∀ y, y.Joins → x.Meets y) :
    (x :: xs).IsChain Meets :=
  List.isChain_cons.mpr ⟨fun y hy => meets y (h.joins y hy), h.chain⟩

theorem Resumes.cons (joins : x.Joins) (chain : (x :: xs).IsChain Meets) : Resumes (x :: xs) where
  chain := chain
  joins y hy := by
    obtain rfl := Option.some.inj hy
    exact joins

theorem Resumes.punctuation {p : Punctuation} (other : p ≠ .opening) (chain : xs.IsChain Meets) :
    Resumes (.punctuation p :: xs) := .cons other (isChain_cons (fun _ => trivial) chain)

theorem Operand.head (d : Operand) :
    ∃ x xs, d.terminals = x :: xs ∧ ∀ cmp, x ≠ .comparator cmp := by
  cases d <;> exact ⟨_, _, rfl, fun cmp h => nomatch h⟩

theorem Resumes.comparator (cmp : Comparator) (d : Expression)
    (chain : (d.terminals ++ xs).IsChain Meets) :
    Resumes (.comparator cmp :: (d.terminals ++ xs)) := by
  refine .cons trivial (List.isChain_cons.mpr ⟨fun y hy => ?_, chain⟩)
  obtain ⟨first, rest⟩ := d
  obtain ⟨x, xs', terminals, other⟩ := first.head
  rw [Expression.terminals, terminals] at hy
  obtain rfl := Option.some.inj hy
  exact other

theorem Argument.isChain (d : Argument) (h : Resumes xs) :
    (d.terminals ++ xs).IsChain Meets := by
  have last (a : Address) : (Terminal.cell a :: xs).IsChain Meets := h.behind fun _ joins => joins
  cases d with
  | cell a => exact last a
  | rectangle r =>
    have colon : Resumes (.punctuation .colon :: .cell r.last :: xs) :=
      .punctuation (by decide) (last r.last)
    exact colon.behind fun _ joins => joins

theorem argumentTerminals_isChain (arguments : List Argument) (h : Resumes xs) :
    (argumentTerminals arguments ++ xs).IsChain Meets := by
  have others (ds : List Argument) :
      Resumes ((ds.flatMap fun d => .punctuation .comma :: d.terminals) ++ xs) := by
    induction ds with
    | nil => exact h
    | cons d ds ih =>
      rw [List.flatMap_cons, List.append_assoc]
      exact .punctuation (by decide) (d.isChain ih)
  cases arguments with
  | nil => exact h.chain
  | cons first ds =>
    rw [argumentTerminals, List.append_assoc]
    exact first.isChain (others ds)

mutual
/-- The terminals of an operand do not run into one another, nor does what may come behind. -/
theorem Operand.isChain (d : Operand) {ys : List Terminal} (h : Resumes ys) :
    (d.terminals ++ ys).IsChain Meets := by
  have closing : Resumes (.punctuation .closing :: ys) := .punctuation (by decide) h.chain
  cases d with
  | number n => exact h.behind fun _ joins => joins
  | text s => exact h.behind fun _ joins => joins
  | cell a => exact h.behind fun _ joins => joins
  | parentheses inner =>
    simp only [Operand.terminals, List.cons_append, List.append_assoc, List.nil_append]
    exact isChain_cons (fun _ => trivial) (inner.isChain closing)
  | minus inner => exact isChain_cons (fun _ => trivial) (inner.isChain h)
  | reduction op arguments =>
    simp only [Operand.terminals, List.cons_append, List.append_assoc, List.nil_append]
    refine List.isChain_cons_cons.mpr ⟨rfl, ?_⟩
    exact isChain_cons (fun _ => trivial) (argumentTerminals_isChain arguments closing)
  | choice left cmp right yes no =>
    simp only [Operand.terminals, List.cons_append, List.append_assoc, List.nil_append]
    have third := Resumes.punctuation (p := .comma) (by decide) (no.isChain closing)
    have second := Resumes.punctuation (p := .comma) (by decide) (yes.isChain third)
    have first := Resumes.comparator cmp right (right.isChain second)
    refine List.isChain_cons_cons.mpr ⟨rfl, ?_⟩
    exact isChain_cons (fun _ => trivial) (left.isChain first)

theorem Expression.isChain (d : Expression) {ys : List Terminal} (h : Resumes ys) :
    (d.terminals ++ ys).IsChain Meets := by
  cases d with
  | chain first rest =>
    rw [Expression.terminals, List.append_assoc]
    exact first.isChain (rest.resumes h)

theorem Tail.resumes (d : Tail) {ys : List Terminal} (h : Resumes ys) :
    Resumes (d.terminals ++ ys) := by
  cases d with
  | nil => exact h
  | cons op operand rest =>
    simp only [Tail.terminals, List.cons_append, List.append_assoc]
    exact .cons trivial (isChain_cons (fun _ => trivial) (operand.isChain (rest.resumes h)))
end

theorem Expression.isChain_terminals (d : Expression) : d.terminals.IsChain Meets := by
  have whole := d.isChain ⟨.nil, fun y hy => nomatch hy⟩
  rwa [List.append_nil] at whole

end Derivation

end ReactiveSheet
