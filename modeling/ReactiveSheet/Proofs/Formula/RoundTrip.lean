import ReactiveSheet.Proofs.Formula.Alike
import ReactiveSheet.Proofs.Formula.Levels

/-!
A formula that is read, printed and read again is the same formula.

A printed operand `Reads` as a formula: whatever of a printed formula comes after it, the grammar
derives the formula from the tokens of its text, and the tokens of what comes after are left. This
is shown piece by piece, from the constants up to the whole formula. The levels are enough, since
the text takes no more of them than the formula was read with.
-/

namespace ReactiveSheet

namespace Formula

open Grammar

/-- Before all that may follow an operand, the formula is derived from the text. -/
def Reads (D : Rule Formula) (text : String) (f : Formula) : Prop :=
  ∀ total rest, Follows rest → ∃ g, g.same f = true ∧
    D (Tokens.scan total (text.toList ++ rest)) g (Tokens.scan total rest)

variable {e : Extent} {n : Nat} {D : Rule Formula} {f : Formula}

theorem Reads.expression {text : String} (h : Reads D text f) : Reads (Expression D) text f := by
  intro total rest follows
  obtain ⟨g, same, derived⟩ := h total rest follows
  exact ⟨g, same, .chain derived (.nil _)⟩

theorem reads_text (s : String) : Reads (Primary e D) (quoted s) (.literal (.text s)) := by
  intro total rest follows
  rw [Tokens.scan_quoted s follows]
  exact ⟨.literal (.text s), beq_self_eq_true s, .text s _⟩

theorem reads_number {x : Float} (finite : x.isFinite = true) (h : ¬ x < 0) :
    Reads (Primary e D) (Numeral.textOf x) (.literal (.number x)) := by
  intro total rest follows
  obtain ⟨y, same, tokens⟩ := Tokens.scan_number total finite h follows
  rw [tokens]
  exact ⟨.literal (.number y), same.beq_of_isFinite finite, .number y _⟩

theorem reads_negative {x : Float} (finite : x.isFinite = true) (h : x < 0) :
    Reads (Primary e (Primary e D)) (Numeral.textOf x) (.literal (.number x)) := by
  intro total rest follows
  obtain ⟨finite', above, text⟩ := Numeral.textOf_of_neg finite h
  obtain ⟨y, same, tokens⟩ := Tokens.scan_number total finite' above follows
  have opposite : Numeral.Alike (-y) x := same.neg.trans (Numeral.alike_neg_neg finite)
  have minus : Tokens.scan total ('-' :: ((Numeral.textOf (-x)).toList ++ rest)) = _ :=
    Tokens.scan_operator .minus
  have derived : Primary e (Primary e D) _ (.literal (.number (-y))) (Tokens.scan total rest) :=
    .minus (Primary.number y _)
  rw [text, List.cons_append, minus, tokens]
  exact ⟨.literal (.number (-y)), opposite.beq_of_isFinite finite, derived⟩

theorem resolve_label {a : Address} (h : a ∈ e) : Reader.resolve e a.label = .ok a := by
  rw [Reader.resolve, Address.ofText_label_of_mem h]
  exact if_pos h

theorem reads_reference {a : Address} (h : a ∈ e) :
    Reads (Primary e D) a.label (.reference a) := by
  intro total rest follows
  rw [Tokens.scan_label a follows]
  exact ⟨.reference a, decide_eq_true rfl, .reference _ (resolve_label h)⟩

theorem toList_labels (a : Address) (cells : List Address) :
    (Address.labels (a :: cells)).toList =
      a.label.toList ++ cells.flatMap fun b => ", ".toList ++ b.label.toList := by
  induction cells generalizing a with
  | nil => simp [Address.labels]
  | cons b cells ih =>
    have more : (b :: cells).map Address.label ≠ [] := List.cons_ne_nil _ _
    have step : Address.labels (a :: b :: cells) =
        a.label ++ ", " ++ Address.labels (b :: cells) :=
      String.intercalate_cons_of_ne_nil more
    rw [step, String.toList_append, String.toList_append, ih, List.flatMap_cons, List.append_assoc,
      List.append_assoc]

theorem follows_labels (cells : List Address) (rest : List Char) :
    Follows ((cells.flatMap fun b => ", ".toList ++ b.label.toList) ++ ')' :: rest) := by
  cases cells with
  | nil => exact .cons (Or.inr rfl)
  | cons b cells => exact .cons (Or.inl rfl)

theorem argument_label {a : Address} (h : a ∈ e) {rest : List Char} (follows : Follows rest)
    (total : Nat) : Argument e (Tokens.scan total (a.label.toList ++ rest)) [a]
      (Tokens.scan total rest) := by
  rw [Tokens.scan_label a follows]
  exact .cell _ (resolve_label h)

theorem moreArguments_labels {cells : List Address} (h : ∀ a ∈ cells, a ∈ e) (total : Nat)
    (rest : List Char) :
    MoreArguments e
      (Tokens.scan total ((cells.flatMap fun b => ", ".toList ++ b.label.toList) ++ ')' :: rest))
      cells (Tokens.scan total (')' :: rest)) := by
  induction cells with
  | nil => exact .nil _
  | cons a cells ih =>
    obtain ⟨ha, others⟩ := List.forall_mem_cons.mp h
    rw [List.flatMap_cons, List.append_assoc, List.append_assoc, Tokens.scan_comma]
    exact .cons (argument_label ha (follows_labels cells rest) total) (ih others)

theorem arguments_labels {cells : List Address} (h : ∀ a ∈ cells, a ∈ e) (total : Nat)
    (rest : List Char) :
    Arguments e (Tokens.scan total ((Address.labels cells).toList ++ ')' :: rest)) cells
      (Tokens.scan total (')' :: rest)) := by
  cases cells with
  | nil => exact .nil _
  | cons a cells =>
    obtain ⟨ha, others⟩ := List.forall_mem_cons.mp h
    rw [toList_labels, List.append_assoc]
    exact .cons (argument_label ha (follows_labels cells rest) total)
      (moreArguments_labels others total rest)

theorem reads_reduction {op : Reduction} {cells : List Address} (h : ∀ a ∈ cells, a ∈ e) :
    Reads (Primary e D) (op.name ++ "(" ++ Address.labels cells ++ ")") (.reduction op cells) := by
  intro total rest follows
  have other : Text.lowered op.name.toList ≠ ['i', 'f'] := by cases op <;> decide
  have cellsRead := arguments_labels h total rest
  have closing : Tokens.scan total (')' :: rest) = _ := Tokens.scan_punctuation .closing
  rw [closing] at cellsRead
  rw [String.toList_append, String.toList_append, List.append_assoc, List.append_assoc,
    Tokens.scan_reduction]
  refine ⟨.reduction op cells, ?_, .reduction other (Reduction.ofName?_name op) cellsRead⟩
  simp [same]

theorem Reads.parentheses {text : String} (h : Reads (Expression D) text f) :
    Reads (Primary e D) ("(" ++ text ++ ")") f := by
  intro total rest follows
  obtain ⟨g, same, derived⟩ := h total (')' :: rest) (.cons (Or.inr rfl))
  have opening : Tokens.scan total ('(' :: (text.toList ++ ')' :: rest)) = _ :=
    Tokens.scan_punctuation .opening
  have closing : Tokens.scan total (')' :: rest) = _ := Tokens.scan_punctuation .closing
  rw [closing] at derived
  have whole : ("(" ++ text ++ ")").toList ++ rest = '(' :: (text.toList ++ ')' :: rest) := by
    simp
  rw [whole, opening]
  exact ⟨g, same, .parentheses derived⟩

theorem follows_rest (operands : List (Operator × Formula)) {rest : List Char}
    (follows : Follows rest) : Follows ((display.displayRest operands).toList ++ rest) := by
  cases operands with
  | nil => exact follows
  | cons p operands =>
    rw [display.displayRest, String.toList_append, String.toList_append, List.append_assoc,
      List.append_assoc]
    exact .operator p.1 _

theorem chain_rest {operands : List (Operator × Formula)}
    (h : ∀ p ∈ operands, Reads D (enclosed p.2 p.2.display) p.2) (total : Nat) {rest : List Char}
    (follows : Follows rest) : ∃ others, same.sameRest others operands = true ∧
      Chain D (Tokens.scan total ((display.displayRest operands).toList ++ rest)) others
        (Tokens.scan total rest) := by
  induction operands with
  | nil => exact ⟨[], rfl, .nil _⟩
  | cons p operands ih =>
    obtain ⟨op, operand⟩ := p
    obtain ⟨here, there⟩ := List.forall_mem_cons.mp h
    obtain ⟨g, hg, derived⟩ := here total _ (follows_rest operands follows)
    obtain ⟨others, hothers, chain⟩ := ih there
    rw [display.displayRest, String.toList_append, String.toList_append, List.append_assoc,
      List.append_assoc, Tokens.scan_spaced_operator]
    refine ⟨(op, g) :: others, ?_, .cons op derived chain⟩
    simp [same.sameRest, hg, hothers]

theorem reads_chain {first second : Formula} {op : Operator} {operands : List (Operator × Formula)}
    (h₁ : Reads D (enclosed first first.display) first)
    (h₂ : Reads D (enclosed second second.display) second)
    (h₃ : ∀ p ∈ operands, Reads D (enclosed p.2 p.2.display) p.2) :
    Reads (Expression D) (display (.chain first op second operands))
      (.chain first op second operands) := by
  intro total rest follows
  obtain ⟨others, hothers, chain⟩ := chain_rest h₃ total follows
  obtain ⟨g₂, same₂, derived₂⟩ := h₂ total _ (follows_rest operands follows)
  obtain ⟨g₁, same₁, derived₁⟩ := h₁ total _ (.operator op _)
  rw [Tokens.scan_spaced_operator] at derived₁
  simp only [display, String.toList_append, List.append_assoc]
  refine ⟨.chain g₁ op g₂ others, ?_, .chain derived₁ (.cons op derived₂ chain)⟩
  simp [same, same₁, same₂, hothers]

theorem reads_choice {left right yes no : Formula} {cmp : Comparator}
    (h₁ : Reads (Expression D) left.display left) (h₂ : Reads (Expression D) right.display right)
    (h₃ : Reads (Expression D) yes.display yes) (h₄ : Reads (Expression D) no.display no) :
    Reads (Primary e D) (display (.choice left cmp right yes no))
      (.choice left cmp right yes no) := by
  intro total rest follows
  obtain ⟨g₄, same₄, derived₄⟩ := h₄ total (")".toList ++ rest) (.cons (Or.inr rfl))
  obtain ⟨g₃, same₃, derived₃⟩ := h₃ total (", ".toList ++ _) (.cons (Or.inl rfl))
  obtain ⟨g₂, same₂, derived₂⟩ := h₂ total (", ".toList ++ _) (.cons (Or.inl rfl))
  obtain ⟨g₁, same₁, derived₁⟩ := h₁ total _ (.comparator cmp _)
  have closing : Tokens.scan total (")".toList ++ rest) = _ := Tokens.scan_punctuation .closing
  rw [closing] at derived₄
  rw [Tokens.scan_comma] at derived₃ derived₂
  rw [Tokens.scan_spaced_comparator] at derived₁
  simp only [display, String.toList_append, List.append_assoc]
  rw [Tokens.scan_choice]
  refine ⟨.choice g₁ cmp g₂ g₃ g₄, ?_, .choice rfl derived₁ derived₂ derived₃ derived₄⟩
  simp [same, same₁, same₂, same₃, same₄]

/-- Wherever there are levels enough, the formula is read from its text, both when it is alone and
when it is an operand. -/
structure Readable (e : Extent) (f : Formula) : Prop where
  alone : ∀ n, Fits e n f → Reads (Expression (Operand e n)) f.display f
  inside : ∀ n, FitsInside e n f → Reads (Operand e n) (enclosed f f.display) f

theorem readable_of_inside (levels : enclosedLevels f f.levels = f.levels)
    (text : enclosed f f.display = f.display)
    (h : ∀ k, FitsInside e (k + 1) f → Reads (Operand e (k + 1)) f.display f) : Readable e f := by
  have inside (n : Nat) (fits : FitsInside e n f) : Reads (Operand e n) f.display f := by
    obtain ⟨k, rfl⟩ := fits.exists_succ
    exact h k fits
  constructor
  case alone =>
    intro n fits
    exact (inside n ⟨fits.printable, Nat.le_trans (Nat.le_of_eq levels) fits.levels_le⟩).expression
  case inside =>
    intro n fits
    rw [text]
    exact inside n fits

theorem readable_literal (v : Value) : Readable e (.literal v) := by
  apply readable_of_inside rfl rfl
  intro k fits
  cases fits.printable.literals v (by simp [literals]) with
  | text s => exact reads_text s
  | @number x finite =>
    by_cases below : x < 0
    · have two : constantLevels (.number x) ≤ k + 1 := fits.levels_le
      rw [constantLevels, if_pos below] at two
      obtain ⟨j, rfl⟩ := Nat.exists_eq_add_of_le' (Nat.le_of_succ_le_succ two)
      exact reads_negative finite below
    · exact reads_number finite below

theorem readable_reference (a : Address) : Readable e (.reference a) := by
  apply readable_of_inside rfl rfl
  exact fun k fits => reads_reference (fits.printable.mentions a (by simp [mentions]))

theorem readable_reduction (op : Reduction) (cells : List Address) :
    Readable e (.reduction op cells) := by
  apply readable_of_inside rfl rfl
  exact fun k fits => reads_reduction fits.printable.mentions

theorem readable_chain {first second : Formula} (op : Operator)
    {operands : List (Operator × Formula)} (h₁ : Readable e first) (h₂ : Readable e second)
    (h₃ : ∀ p ∈ operands, Readable e p.2) : Readable e (.chain first op second operands) := by
  have alone (n : Nat) (fits : Fits e n (.chain first op second operands)) :
      Reads (Expression (Operand e n)) (display (.chain first op second operands))
        (.chain first op second operands) := by
    obtain ⟨fits₁, fits₂, fits₃⟩ := fits_chain.mp fits
    exact reads_chain (h₁.inside n fits₁) (h₂.inside n fits₂) fun p hp =>
      (h₃ p hp).inside n (fits₃ p hp)
  constructor
  case alone => exact alone
  case inside =>
    intro n fits
    obtain ⟨k, rfl⟩ := fits.exists_succ
    exact (alone k ⟨fits.printable, Nat.le_of_succ_le_succ fits.levels_le⟩).parentheses

theorem readable_choice {left right yes no : Formula} (cmp : Comparator) (h₁ : Readable e left)
    (h₂ : Readable e right) (h₃ : Readable e yes) (h₄ : Readable e no) :
    Readable e (.choice left cmp right yes no) := by
  apply readable_of_inside rfl rfl
  intro k fits
  obtain ⟨fits₁, fits₂, fits₃, fits₄⟩ := fits_choice.mp ⟨fits.printable, fits.levels_le⟩
  exact reads_choice (h₁.alone k fits₁) (h₂.alone k fits₂) (h₃.alone k fits₃) (h₄.alone k fits₄)

theorem readable (e : Extent) (f : Formula) : Readable e f := by
  induction f with
  | literal v => exact readable_literal v
  | reference a => exact readable_reference a
  | reduction op cells => exact readable_reduction op cells
  | chain first op second rest ih₁ ih₂ ih₃ => exact readable_chain op ih₁ ih₂ ih₃
  | choice left cmp right yes no ih₁ ih₂ ih₃ ih₄ => exact readable_choice cmp ih₁ ih₂ ih₃ ih₄

/-- A text with no blank at either end, and no sign of a formula in front. -/
structure Bare (cs : List Char) : Prop where
  first : ∃ c ∈ cs.head?, Text.isBlank c = false ∧ c ≠ '='
  last : ∃ c ∈ cs.getLast?, Text.isBlank c = false

theorem Bare.trim_eq {cs : List Char} (h : Bare cs) : Text.trim cs = cs := by
  obtain ⟨c, first, visible, -⟩ := h.first
  obtain ⟨d, last, visible'⟩ := h.last
  apply Text.trim_eq_self
  · intro c' first'
    obtain rfl := Option.some.inj (first.symm.trans first')
    exact visible
  · intro d' last'
    obtain rfl := Option.some.inj (last.symm.trans last')
    exact visible'

theorem body_of_bare {text : String} (h : Bare text.toList) : body text = text.toList := by
  obtain ⟨c, first, -, other⟩ := h.first
  unfold body
  rw [h.trim_eq]
  split
  · rename_i cs equals
    rw [equals] at first
    exact absurd (Option.some.inj first) (Ne.symm other)
  · rfl

theorem bare_of_all {cs : List Char} (some : cs ≠ [])
    (h : ∀ c ∈ cs, Text.isBlank c = false ∧ c ≠ '=') : Bare cs where
  first := ⟨_, List.head?_eq_some_head some, h _ (List.head_mem some)⟩
  last := ⟨_, List.getLast?_eq_some_getLast some, (h _ (List.getLast_mem some)).1⟩

theorem Bare.append {cs cs' : List Char} (h : Bare cs) (mid : List Char) (k : Bare cs') :
    Bare (cs ++ (mid ++ cs')) := by
  obtain ⟨c, first, visible⟩ := h.first
  obtain ⟨d, last, visible'⟩ := k.last
  constructor
  case first => exact ⟨c, by simp [Option.mem_def.mp first], visible⟩
  case last => exact ⟨d, by simp [Option.mem_def.mp last], visible'⟩

theorem bare_singleton {c : Char} (visible : Text.isBlank c = false) (other : c ≠ '=') : Bare [c] :=
  ⟨⟨c, rfl, visible, other⟩, ⟨c, rfl, visible⟩⟩

theorem bare_quoted (s : String) : Bare (quoted s).toList := by
  rw [quoted, String.toList_ofList]
  exact (bare_singleton rfl (by decide)).append _ (bare_singleton (c := '"') rfl (by decide))

theorem bare_textOf {x : Float} (finite : x.isFinite = true) : Bare (Numeral.textOf x).toList := by
  have above {y : Float} (finite : y.isFinite = true) (h : ¬ y < 0) :
      Bare (Numeral.textOf y).toList := by
    obtain ⟨d, written, -⟩ := Numeral.written_textOf finite h
    obtain ⟨c, tail, text, -⟩ := written.exists_cons
    apply bare_of_all (text ▸ List.cons_ne_nil c tail)
    intro c hc
    exact written.of_mem (P := fun c => Text.isBlank c = false ∧ c ≠ '=') (by decide) (by decide) hc
  by_cases h : x < 0
  · obtain ⟨finite', h', text⟩ := Numeral.textOf_of_neg finite h
    rw [text]
    exact (bare_singleton (c := '-') rfl (by decide)).append [] (above finite' h')
  · exact above finite h

theorem bare_label (a : Address) : Bare a.label.toList := by
  obtain ⟨n, tail, text⟩ := Address.exists_label_eq a
  apply bare_of_all
  · rw [text]
    exact List.cons_ne_nil _ _
  · intro c hc
    exact Address.of_mem_label (P := fun c => Text.isBlank c = false ∧ c ≠ '=') (by decide)
      (by decide) hc

theorem bare_enclosed {text : String} (h : Bare text.toList) : Bare (enclosed f text).toList := by
  unfold enclosed
  split
  · rw [String.toList_append, String.toList_append, List.append_assoc]
    exact (bare_singleton (c := '(') rfl (by decide)).append _
      (bare_singleton (c := ')') rfl (by decide))
  · exact h

theorem bare_rest {operands : List (Operator × Formula)}
    (h : ∀ p ∈ operands, Bare p.2.display.toList) {cs : List Char} (start : Bare cs) :
    Bare (cs ++ (display.displayRest operands).toList) := by
  induction operands generalizing cs with
  | nil =>
    rw [display.displayRest, String.toList_empty, List.append_nil]
    exact start
  | cons p operands ih =>
    obtain ⟨here, there⟩ := List.forall_mem_cons.mp h
    have next := ih there
      (start.append (spaced p.1.symbol.toString).toList (bare_enclosed (f := p.2) here))
    simp only [display.displayRest, String.toList_append, List.append_assoc] at next ⊢
    exact next

theorem bare_display {f : Formula} (h : f.Printable e) : Bare f.display.toList := by
  have closing : Bare ")".toList := bare_singleton (c := ')') rfl (by decide)
  induction f with
  | literal v =>
    cases h.literals v (by simp [literals]) with
    | text s => exact bare_quoted s
    | number finite => exact bare_textOf finite
  | reference a => exact bare_label a
  | reduction op cells =>
    have name : Bare op.name.toList := by
      cases op <;> exact ⟨⟨_, rfl, rfl, by decide⟩, ⟨_, rfl, rfl⟩⟩
    have whole := name.append ("(" ++ Address.labels cells).toList closing
    simp only [String.toList_append, List.append_assoc] at whole
    simp only [display, String.toList_append, List.append_assoc]
    exact whole
  | chain first op second rest ih₁ ih₂ ih₃ =>
    obtain ⟨h₁, h₂, h₃⟩ := printable_chain.mp h
    have start := (bare_enclosed (f := first) (ih₁ h₁)).append (spaced op.symbol.toString).toList
      (bare_enclosed (f := second) (ih₂ h₂))
    have whole := bare_rest (fun p hp => ih₃ p hp (h₃ p hp)) start
    simp only [display, String.toList_append, List.append_assoc] at whole ⊢
    exact whole
  | choice left cmp right yes no ih₁ ih₂ ih₃ ih₄ =>
    have name : Bare "IF(".toList := ⟨⟨'I', rfl, rfl, by decide⟩, ⟨'(', rfl, rfl⟩⟩
    have whole := name.append (left.display ++ spaced cmp.symbol ++ right.display ++ ", " ++
      yes.display ++ ", " ++ no.display).toList closing
    simp only [String.toList_append, List.append_assoc] at whole
    simp only [display, String.toList_append, List.append_assoc]
    exact whole

/-- The text of a formula that was read reads as the same formula again. -/
theorem display_reads_back (e : Extent) {text : String} {f : Formula}
    (h : ofText e text = .ok f) : ∃ g, ofText e f.display = .ok g ∧ (g == f) = true := by
  have fits := fits_of_ofText h
  have whole := body_of_bare (bare_display fits.printable)
  obtain ⟨g, same, derived⟩ := (readable e f).alone _ fits (Text.byteCount f.display.toList) [] .nil
  rw [List.append_nil, Tokens.scan_nil] at derived
  refine ⟨g, ?_, same⟩
  rw [ofText, whole]
  exact ofTokens_eq_ok_iff.mpr derived

/-- A cell with a minus sign in front is read as a difference from zero, and again from its text. -/
theorem display_reads_back_negated :
    let e : Extent := ⟨1, 1, by decide, by decide, by decide, by decide⟩
    let f : Formula := .chain (.literal (.number 0)) .minus (.reference ⟨0, 0⟩) []
    ofText e "=-a1" = .ok f ∧ ∃ g, ofText e f.display = .ok g ∧ (g == f) = true := by
  intro e f
  have tokens : Tokens.ofText (body "=-a1") =
      .next (.operator .minus) (.next (.cell "a1") .done) := by
    have minus : Tokens.scan 3 ['-', 'a', '1'] = _ := Tokens.scan_operator .minus
    have cell : Tokens.scan 3 ['a', '1'] = .next (.cell "a1") (Tokens.scan 3 []) :=
      Tokens.scan_of_leads ⟨'a', ['1'], _, rfl, rfl, rfl, rfl, rfl⟩
    exact minus.trans (by rw [cell, Tokens.scan_nil])
  have derived : Expression (Operand e maxLevels) (Tokens.ofText (body "=-a1")) f .done := by
    have operand : Operand e (62 + 1) (.next (.cell "a1") .done) (.reference ⟨0, 0⟩) .done :=
      .reference .done rfl
    rw [tokens]
    exact .chain (.minus operand) (.nil _)
  have read : ofText e "=-a1" = .ok f := ofTokens_eq_ok_iff.mpr derived
  exact ⟨read, display_reads_back e read⟩

end Formula

end ReactiveSheet
