import ReactiveSheet.Proofs.Formula.Separation

/-!
Which texts are read as formulas.

What the rules derive from tokens is what a derivation stands for whose terminals the tokens stand
for, if it nests no deeper than the rules allow, has its cells inside and its rectangles the right
way round. So a text is read as a formula just when it splits into the terminals of such a
derivation of the formula. The constants of the formula are numbers, and texts of which every
character is in the text that was read.
-/

namespace ReactiveSheet

open Terminal (Splits)

namespace Stands

variable {t : Token}

theorem number_iff {n : Float} : Stands t (.number n) ↔ t = .number n :=
  ⟨fun | .number _ => rfl, fun h => h ▸ .number n⟩

theorem text_iff {s : String} : Stands t (.text s) ↔ t = .text s :=
  ⟨fun | .text _ => rfl, fun h => h ▸ .text s⟩

theorem cell_iff {a : Address} :
    Stands t (.cell a) ↔ ∃ name, t = .cell name ∧ Address.ofText name = .ok a :=
  ⟨fun | .cell reads => ⟨_, rfl, reads⟩, fun ⟨_, same, reads⟩ => same ▸ .cell reads⟩

theorem reducer_iff {op : Reduction} :
    Stands t (.reducer op) ↔ ∃ name, t = .name name ∧
      Text.lowered name.toList ≠ ['i', 'f'] ∧ Reduction.ofName? name = some op :=
  ⟨fun | .reducer other known => ⟨_, rfl, other, known⟩,
    fun ⟨_, same, other, known⟩ => same ▸ .reducer other known⟩

theorem conditional_iff :
    Stands t .conditional ↔ ∃ name, t = .name name ∧ Text.lowered name.toList = ['i', 'f'] :=
  ⟨fun | .conditional known => ⟨_, rfl, known⟩, fun ⟨_, same, known⟩ => same ▸ .conditional known⟩

theorem operator_iff {op : Operator} : Stands t (.operator op) ↔ t = .operator op :=
  ⟨fun | .operator _ => rfl, fun h => h ▸ .operator op⟩

theorem comparator_iff {cmp : Comparator} : Stands t (.comparator cmp) ↔ t = .comparator cmp :=
  ⟨fun | .comparator _ => rfl, fun h => h ▸ .comparator cmp⟩

theorem punctuation_iff {p : Punctuation} : Stands t (.punctuation p) ↔ t = .punctuation p :=
  ⟨fun | .punctuation _ => rfl, fun h => h ▸ .punctuation p⟩

end Stands

namespace Spans

variable {ts ts' ts'' : Tokens} {x : Terminal} {xs ys : List Terminal}

theorem nil_iff : Spans ts [] ts' ↔ ts = ts' :=
  ⟨fun | .nil _ => rfl, fun h => h ▸ .nil ts⟩

theorem cons_iff :
    Spans ts (x :: xs) ts' ↔ ∃ t rest, ts = .next t rest ∧ Stands t x ∧ Spans rest xs ts' := by
  constructor
  · rintro (_ | ⟨first, others⟩)
    exact ⟨_, _, rfl, first, others⟩
  · rintro ⟨t, rest, rfl, first, others⟩
    exact .cons first others

theorem append_iff :
    Spans ts (xs ++ ys) ts' ↔ ∃ rest, Spans ts xs rest ∧ Spans rest ys ts' := by
  induction xs generalizing ts with
  | nil => simp [nil_iff]
  | cons x xs ih =>
    simp only [List.cons_append, cons_iff, ih]
    grind

end Spans

/-- A kind of trees: what is written in one, and what it stands for. -/
structure Kind (T α : Type) where
  terminals : T → List Terminal
  rectangles : T → List Rectangle
  depth : T → Nat
  meaning : T → α

/-- What the readers ask of a tree for which they read a text. -/
@[mk_iff]
structure Kind.Admits {T α : Type} (k : Kind T α) (e : Extent) (levels : Nat) (d : T) : Prop where
  depth_le : k.depth d ≤ levels
  inside : ∀ a, .cell a ∈ k.terminals d → a ∈ e
  ordered : ∀ r ∈ k.rectangles d, r.Ordered

def Kind.rule {T α : Type} (k : Kind T α) (e : Extent) (levels : Nat) : Grammar.Rule α :=
  fun ts v ts' => ∃ d, Spans ts (k.terminals d) ts' ∧ k.Admits e levels d ∧ k.meaning d = v

namespace Derivation

def arguments : Kind Argument (List Address) where
  terminals := Argument.terminals
  rectangles := Argument.rectangles
  depth _ := 0
  meaning := Argument.cells

def argumentLists : Kind (List Argument) (List Address) where
  terminals := argumentTerminals
  rectangles ds := ds.flatMap Argument.rectangles
  depth _ := 0
  meaning ds := ds.flatMap Argument.cells

def moreArguments : Kind (List Argument) (List Address) where
  terminals ds := ds.flatMap fun d => .punctuation .comma :: d.terminals
  rectangles ds := ds.flatMap Argument.rectangles
  depth _ := 0
  meaning ds := ds.flatMap Argument.cells

def operands : Kind Operand Formula :=
  ⟨Operand.terminals, Operand.rectangles, Operand.depth, Operand.formula⟩

def expressions : Kind Expression Formula :=
  ⟨Expression.terminals, Expression.rectangles, Expression.depth, Expression.formula⟩

def tails : Kind Tail (List (Operator × Formula)) :=
  ⟨Tail.terminals, Tail.rectangles, Tail.depth, Tail.operands⟩

variable {e : Extent} {n : Nat}

theorem moreArguments_admits_cons {d : Argument} {ds : List Argument} :
    moreArguments.Admits e n (d :: ds) ↔ arguments.Admits e n d ∧ moreArguments.Admits e n ds := by
  simp only [Kind.admits_iff, moreArguments, arguments, List.flatMap_cons, List.mem_append,
    List.mem_cons]
  grind

theorem argumentLists_admits_cons {d : Argument} {ds : List Argument} :
    argumentLists.Admits e n (d :: ds) ↔ arguments.Admits e n d ∧ moreArguments.Admits e n ds := by
  simp only [Kind.admits_iff, argumentLists, moreArguments, arguments, argumentTerminals,
    List.flatMap_cons, List.mem_append]
  grind

theorem tails_admits_cons {op : Operator} {operand : Operand} {rest : Tail} :
    tails.Admits e n (.cons op operand rest) ↔
      operands.Admits e n operand ∧ tails.Admits e n rest := by
  simp only [Kind.admits_iff, tails, operands, Tail.terminals, Tail.rectangles, Tail.depth,
    List.mem_append, List.mem_cons, Nat.max_le]
  grind

theorem expressions_admits {first : Operand} {rest : Tail} :
    expressions.Admits e n (.chain first rest) ↔
      operands.Admits e n first ∧ tails.Admits e n rest := by
  simp only [Kind.admits_iff, expressions, tails, operands, Expression.terminals,
    Expression.rectangles, Expression.depth, List.mem_append, Nat.max_le]
  grind

theorem operands_admits_number (x : Float) : operands.Admits e (n + 1) (.number x) := by
  simp [Kind.admits_iff, operands, Operand.terminals, Operand.rectangles, Operand.depth]

theorem operands_admits_text (s : String) : operands.Admits e (n + 1) (.text s) := by
  simp [Kind.admits_iff, operands, Operand.terminals, Operand.rectangles, Operand.depth]

theorem operands_admits_cell {a : Address} : operands.Admits e (n + 1) (.cell a) ↔ a ∈ e := by
  simp [Kind.admits_iff, operands, Operand.terminals, Operand.rectangles, Operand.depth]

theorem operands_admits_parentheses {inner : Expression} :
    operands.Admits e (n + 1) (.parentheses inner) ↔ expressions.Admits e n inner := by
  simp [Kind.admits_iff, expressions, operands, Operand.terminals, Operand.rectangles,
    Operand.depth]

theorem operands_admits_minus {inner : Operand} :
    operands.Admits e (n + 1) (.minus inner) ↔ operands.Admits e n inner := by
  simp [Kind.admits_iff, operands, Operand.terminals, Operand.rectangles, Operand.depth]

theorem operands_admits_reduction {op : Reduction} {ds : List Argument} :
    operands.Admits e (n + 1) (.reduction op ds) ↔ argumentLists.Admits e n ds := by
  simp [Kind.admits_iff, operands, argumentLists, Operand.terminals, Operand.rectangles,
    Operand.depth]

theorem operands_admits_choice {left right yes no : Expression} {cmp : Comparator} :
    operands.Admits e (n + 1) (.choice left cmp right yes no) ↔
      expressions.Admits e n left ∧ expressions.Admits e n right ∧
        expressions.Admits e n yes ∧ expressions.Admits e n no := by
  simp only [Kind.admits_iff, expressions, operands, Operand.terminals, Operand.rectangles,
    Operand.depth, List.mem_append, List.mem_cons, Nat.add_le_add_iff_right, Nat.max_le]
  grind

variable {ts ts' : Tokens}

theorem arguments_iff {cells : List Address} :
    Grammar.Argument e ts cells ts' ↔ arguments.rule e n ts cells ts' := by
  constructor
  · intro h
    cases h with
    | @cell name a _ here =>
      obtain ⟨reads, inside⟩ := Reader.resolve_eq_ok_iff.mp here
      refine ⟨.cell a, .cons (.cell reads) (.nil ts'), ⟨Nat.zero_le n, ?_, ?_⟩, rfl⟩
      · simpa [arguments, Argument.terminals] using inside
      · exact fun r hr => nomatch hr
    | @rectangle name name' a b _ _ first last between =>
      obtain ⟨reads, -⟩ := Reader.resolve_eq_ok_iff.mp first
      obtain ⟨reads', -⟩ := Reader.resolve_eq_ok_iff.mp last
      obtain ⟨ha, hb, ordered, rfl⟩ := Extent.cellsBetween_eq_ok_iff.mp between
      have spans : Spans _ [.cell a, .punctuation .colon, .cell b] ts' :=
        .cons (.cell reads) (.cons (.punctuation .colon) (.cons (.cell reads') (.nil ts')))
      refine ⟨.rectangle ⟨a, b⟩, spans, ⟨Nat.zero_le n, ?_, ?_⟩, rfl⟩
      · simpa [arguments, Argument.terminals] using ⟨ha, hb⟩
      · simpa [arguments, Argument.rectangles] using ordered
  · rintro ⟨d, spans, admits, rfl⟩
    cases d with
    | cell a =>
      have inside : a ∈ e := admits.inside a (by simp [arguments, Argument.terminals])
      simp only [arguments, Argument.terminals, Spans.cons_iff, Stands.cell_iff,
        Spans.nil_iff] at spans
      obtain ⟨_, _, rfl, ⟨_, rfl, reads⟩, rfl⟩ := spans
      exact .cell _ (Reader.resolve_eq_ok_iff.mpr ⟨reads, inside⟩)
    | rectangle r =>
      have ordered : r.Ordered := admits.ordered r (by simp [arguments, Argument.rectangles])
      have first : r.first ∈ e := admits.inside _ (by simp [arguments, Argument.terminals])
      have last : r.last ∈ e := admits.inside _ (by simp [arguments, Argument.terminals])
      simp only [arguments, Argument.terminals, Spans.cons_iff, Stands.punctuation_iff,
        Stands.cell_iff, Spans.nil_iff] at spans
      obtain ⟨_, _, rfl, ⟨_, rfl, reads⟩, _, _, rfl, rfl, _, _, rfl, ⟨_, rfl, reads'⟩, rfl⟩ := spans
      exact .rectangle _ (Reader.resolve_eq_ok_iff.mpr ⟨reads, first⟩)
        (Reader.resolve_eq_ok_iff.mpr ⟨reads', last⟩)
        (Extent.cellsBetween_eq_ok_iff.mpr ⟨first, last, ordered, rfl⟩)

theorem moreArguments_iff {cells : List Address} :
    Grammar.MoreArguments e ts cells ts' ↔ moreArguments.rule e n ts cells ts' := by
  constructor
  · intro h
    induction h with
    | nil ts => exact ⟨[], .nil ts, by simp [Kind.admits_iff, moreArguments], rfl⟩
    | cons first others ih =>
      obtain ⟨d, spans, admits, rfl⟩ := (arguments_iff (n := n)).mp first
      obtain ⟨ds, spans', admits', rfl⟩ := ih
      exact ⟨d :: ds, .cons (.punctuation .comma) (Spans.append_iff.mpr ⟨_, spans, spans'⟩),
        moreArguments_admits_cons.mpr ⟨admits, admits'⟩, rfl⟩
  · rintro ⟨ds, spans, admits, rfl⟩
    induction ds generalizing ts with
    | nil =>
      obtain rfl := Spans.nil_iff.mp spans
      exact .nil ts
    | cons d ds ih =>
      obtain ⟨here, there⟩ := moreArguments_admits_cons.mp admits
      obtain ⟨_, front, others⟩ := Spans.append_iff.mp spans
      obtain ⟨_, _, rfl, comma, first⟩ := Spans.cons_iff.mp front
      obtain rfl := Stands.punctuation_iff.mp comma
      exact .cons (arguments_iff.mpr ⟨d, first, here, rfl⟩) (ih others there)

theorem argumentLists_iff {cells : List Address} :
    Grammar.Arguments e ts cells ts' ↔ argumentLists.rule e n ts cells ts' := by
  constructor
  · intro h
    cases h with
    | nil => exact ⟨[], .nil ts, by simp [Kind.admits_iff, argumentLists, argumentTerminals], rfl⟩
    | cons first others =>
      obtain ⟨d, spans, admits, rfl⟩ := (arguments_iff (n := n)).mp first
      obtain ⟨ds, spans', admits', rfl⟩ := (moreArguments_iff (n := n)).mp others
      exact ⟨d :: ds, Spans.append_iff.mpr ⟨_, spans, spans'⟩,
        argumentLists_admits_cons.mpr ⟨admits, admits'⟩, rfl⟩
  · rintro ⟨ds, spans, admits, rfl⟩
    cases ds with
    | nil =>
      obtain rfl := Spans.nil_iff.mp spans
      exact .nil ts
    | cons d ds =>
      obtain ⟨here, there⟩ := argumentLists_admits_cons.mp admits
      obtain ⟨_, first, others⟩ := Spans.append_iff.mp spans
      exact .cons (arguments_iff.mpr ⟨d, first, here, rfl⟩)
        (moreArguments_iff.mpr ⟨ds, others, there, rfl⟩)

theorem chain_of_tail : (d : Tail) → {ts : Tokens} → Spans ts d.terminals ts' →
    tails.Admits e n d → Grammar.Chain (operands.rule e n) ts d.operands ts'
  | .nil, _, spans, _ => Spans.nil_iff.mp spans ▸ .nil _
  | .cons op operand rest, _, spans, admits => by
    obtain ⟨here, there⟩ := tails_admits_cons.mp admits
    obtain ⟨_, front, others⟩ := Spans.append_iff.mp spans
    obtain ⟨_, _, rfl, sign, first⟩ := Spans.cons_iff.mp front
    obtain rfl := Stands.operator_iff.mp sign
    exact .cons op ⟨operand, first, here, rfl⟩ (chain_of_tail rest others there)

theorem tails_iff {fs : List (Operator × Formula)} :
    Grammar.Chain (operands.rule e n) ts fs ts' ↔ tails.rule e n ts fs ts' := by
  constructor
  · intro h
    induction h with
    | nil ts =>
      exact ⟨.nil, .nil ts,
        by simp [Kind.admits_iff, tails, Tail.depth, Tail.terminals, Tail.rectangles], rfl⟩
    | cons op first others ih =>
      obtain ⟨operand, spans, admits, rfl⟩ := first
      obtain ⟨rest, spans', admits', rfl⟩ := ih
      exact ⟨.cons op operand rest, .cons (.operator op) (Spans.append_iff.mpr ⟨_, spans, spans'⟩),
        tails_admits_cons.mpr ⟨admits, admits'⟩, rfl⟩
  · rintro ⟨d, spans, admits, rfl⟩
    exact chain_of_tail d spans admits

theorem expressions_iff {f : Formula} :
    Grammar.Expression (operands.rule e n) ts f ts' ↔ expressions.rule e n ts f ts' := by
  constructor
  · rintro ⟨⟨operand, spans, admits, rfl⟩, others⟩
    obtain ⟨rest, spans', admits', rfl⟩ := tails_iff.mp others
    exact ⟨.chain operand rest, Spans.append_iff.mpr ⟨_, spans, spans'⟩,
      expressions_admits.mpr ⟨admits, admits'⟩, Expression.formula_chain operand rest⟩
  · rintro ⟨⟨operand, rest⟩, spans, admits, rfl⟩
    obtain ⟨here, there⟩ := expressions_admits.mp admits
    obtain ⟨_, first, others⟩ := Spans.append_iff.mp spans
    exact .chain ⟨operand, first, here, rfl⟩ (tails_iff.mpr ⟨rest, others, there, rfl⟩)

theorem operands_iff {f : Formula} :
    Grammar.Primary e (operands.rule e n) ts f ts' ↔ operands.rule e (n + 1) ts f ts' := by
  constructor
  · intro h
    cases h with
    | number x => exact ⟨.number x, .cons (.number x) (.nil ts'), operands_admits_number x, rfl⟩
    | text s => exact ⟨.text s, .cons (.text s) (.nil ts'), operands_admits_text s, rfl⟩
    | @reference name a _ here =>
      obtain ⟨reads, inside⟩ := Reader.resolve_eq_ok_iff.mp here
      exact ⟨.cell a, .cons (.cell reads) (.nil ts'), operands_admits_cell.mpr inside, rfl⟩
    | parentheses inner =>
      obtain ⟨d, spans, admits, rfl⟩ := expressions_iff.mp inner
      have closing := Spans.cons (.punctuation .closing) (.nil ts')
      have start := Spans.cons (.punctuation .opening) spans
      exact ⟨.parentheses d, Spans.append_iff.mpr ⟨_, start, closing⟩,
        operands_admits_parentheses.mpr admits, rfl⟩
    | minus inner =>
      obtain ⟨d, spans, admits, rfl⟩ := inner
      exact ⟨.minus d, .cons (.operator .minus) spans, operands_admits_minus.mpr admits,
        d.formula_minus⟩
    | reduction other known cells =>
      obtain ⟨ds, spans, admits, rfl⟩ := (argumentLists_iff (n := n)).mp cells
      have closing := Spans.cons (.punctuation .closing) (.nil ts')
      have start := Spans.cons (.reducer other known) (.cons (.punctuation .opening) spans)
      exact ⟨.reduction _ ds, Spans.append_iff.mpr ⟨_, start, closing⟩,
        operands_admits_reduction.mpr admits, rfl⟩
    | @choice _ cmp _ _ _ _ _ _ _ _ _ known first second third fourth =>
      obtain ⟨left, spans₁, admits₁, rfl⟩ := expressions_iff.mp first
      obtain ⟨right, spans₂, admits₂, rfl⟩ := expressions_iff.mp second
      obtain ⟨yes, spans₃, admits₃, rfl⟩ := expressions_iff.mp third
      obtain ⟨no, spans₄, admits₄, rfl⟩ := expressions_iff.mp fourth
      have closing := Spans.cons (.punctuation .closing) (.nil ts')
      have start := Spans.cons (.conditional known) (.cons (.punctuation .opening) spans₁)
      refine ⟨.choice left cmp right yes no, ?_,
        operands_admits_choice.mpr ⟨admits₁, admits₂, admits₃, admits₄⟩, rfl⟩
      have spans := Spans.append_iff.mpr ⟨_, start, .cons (.comparator cmp) spans₂⟩
      have spans := Spans.append_iff.mpr ⟨_, spans, .cons (.punctuation .comma) spans₃⟩
      have spans := Spans.append_iff.mpr ⟨_, spans, .cons (.punctuation .comma) spans₄⟩
      have spans := Spans.append_iff.mpr ⟨_, spans, closing⟩
      simpa [operands, expressions, Operand.terminals] using spans
  · rintro ⟨d, spans, admits, rfl⟩
    cases d with
    | number x =>
      simp only [operands, Operand.terminals, Spans.cons_iff, Stands.number_iff,
        Spans.nil_iff] at spans
      obtain ⟨_, _, rfl, rfl, rfl⟩ := spans
      exact .number x _
    | text s =>
      simp only [operands, Operand.terminals, Spans.cons_iff, Stands.text_iff,
        Spans.nil_iff] at spans
      obtain ⟨_, _, rfl, rfl, rfl⟩ := spans
      exact .text s _
    | cell a =>
      have inside := operands_admits_cell.mp admits
      simp only [operands, Operand.terminals, Spans.cons_iff, Stands.cell_iff,
        Spans.nil_iff] at spans
      obtain ⟨_, _, rfl, ⟨_, rfl, reads⟩, rfl⟩ := spans
      exact .reference _ (Reader.resolve_eq_ok_iff.mpr ⟨reads, inside⟩)
    | parentheses inner =>
      have admits := operands_admits_parentheses.mp admits
      simp only [operands, Operand.terminals, List.cons_append, Spans.cons_iff, Spans.append_iff,
        Stands.punctuation_iff, Spans.nil_iff] at spans
      obtain ⟨_, _, rfl, rfl, _, spans, _, _, rfl, rfl, rfl⟩ := spans
      exact .parentheses (expressions_iff.mpr ⟨inner, spans, admits, rfl⟩)
    | minus inner =>
      have admits := operands_admits_minus.mp admits
      simp only [operands, Operand.terminals, Spans.cons_iff, Stands.operator_iff] at spans
      obtain ⟨_, _, rfl, rfl, spans⟩ := spans
      exact .minus ⟨inner, spans, admits, rfl⟩
    | reduction op ds =>
      have admits := operands_admits_reduction.mp admits
      simp only [operands, Operand.terminals, List.cons_append, Spans.cons_iff, Spans.append_iff,
        Stands.punctuation_iff, Stands.reducer_iff, Spans.nil_iff] at spans
      obtain ⟨_, _, rfl, ⟨_, rfl, other, known⟩, _, _, rfl, rfl, _, spans, _, _, rfl, rfl, rfl⟩ :=
        spans
      exact .reduction other known (argumentLists_iff.mpr ⟨ds, spans, admits, rfl⟩)
    | choice left cmp right yes no =>
      obtain ⟨admits₁, admits₂, admits₃, admits₄⟩ := operands_admits_choice.mp admits
      simp only [operands, Operand.terminals, List.cons_append, List.append_assoc, Spans.cons_iff,
        Spans.append_iff, Stands.punctuation_iff, Stands.comparator_iff, Stands.conditional_iff,
        Spans.nil_iff] at spans
      obtain ⟨_, _, rfl, ⟨_, rfl, known⟩, _, _, rfl, rfl, _, spans₁, _, _, rfl, rfl, _, spans₂,
        _, _, rfl, rfl, _, spans₃, _, _, rfl, rfl, _, spans₄, _, _, rfl, rfl, rfl⟩ := spans
      exact .choice known (expressions_iff.mpr ⟨left, spans₁, admits₁, rfl⟩)
        (expressions_iff.mpr ⟨right, spans₂, admits₂, rfl⟩)
        (expressions_iff.mpr ⟨yes, spans₃, admits₃, rfl⟩)
        (expressions_iff.mpr ⟨no, spans₄, admits₄, rfl⟩)

/-- The rule for operands with so many levels is that of the trees which nest no deeper. -/
theorem operand_eq (e : Extent) (n : Nat) : Grammar.Operand e n = operands.rule e n := by
  induction n with
  | zero =>
    funext ts f ts'
    refine propext ⟨False.elim, ?_⟩
    rintro ⟨d, -, admits, -⟩
    cases d <;> exact nomatch admits.depth_le
  | succ n ih =>
    funext ts f ts'
    rw [Grammar.Operand, ih]
    exact propext operands_iff

end Derivation

namespace Formula

variable {e : Extent} {text : String} {f : Formula}

theorem exists_derivation (h : ofText e text = .ok f) :
    ∃ d : Derivation.Expression, Splits (body text) d.terminals ∧
      Derivation.expressions.Admits e maxLevels d ∧ d.formula = f := by
  have derived := ofTokens_eq_ok_iff.mp h
  rw [Derivation.operand_eq] at derived
  obtain ⟨d, spans, admits, same⟩ := Derivation.expressions_iff.mp derived
  exact ⟨d, splits_of_spans spans, admits, same⟩

theorem ofText_of_derivation (d : Derivation.Expression) (splits : Splits (body text) d.terminals)
    (admits : Derivation.expressions.Admits e maxLevels d) : ofText e text = .ok d.formula := by
  have spans := Tokens.spans_scan (Text.byteCount (body text)) splits d.isChain_terminals
  refine ofTokens_eq_ok_iff.mpr ?_
  rw [Derivation.operand_eq]
  exact Derivation.expressions_iff.mpr ⟨d, spans, admits, rfl⟩

theorem inner_iff {cs : List Char} : Inner text cs ↔ body text = cs := by
  unfold body
  constructor
  · intro h
    cases h with
    | signed trimmed =>
      rw [trimmed]
      rfl
    | plain trimmed unsigned =>
      rw [trimmed]
      split
      · exact absurd rfl unsigned
      · rfl
  · rintro rfl
    split
    · rename_i rest trimmed
      exact .signed trimmed
    · rename_i other
      refine .plain rfl fun first => ?_
      obtain ⟨rest, trimmed⟩ := List.head?_eq_some_iff.mp first
      exact other rest trimmed

/-- A text is read as a formula just when its inner part splits into the terminals of a derivation
that stands for the formula, with all cells inside, all rectangles from the top-left corner to the
bottom-right one, and operands in one another no deeper than there are levels. -/
theorem ofText_eq_ok_iff (e : Extent) (text : String) (f : Formula) :
    ofText e text = .ok f ↔ ∃ (cs : List Char) (d : Derivation.Expression),
      Inner text cs ∧ Splits cs d.terminals ∧ d.depth ≤ maxLevels ∧
        (∀ a, .cell a ∈ d.terminals → a ∈ e) ∧ (∀ r ∈ d.rectangles, r.Ordered) ∧
        d.formula = f := by
  constructor
  · intro h
    obtain ⟨d, splits, ⟨depth, inside, ordered⟩, same⟩ := exists_derivation h
    exact ⟨body text, d, inner_iff.mpr rfl, splits, depth, inside, ordered, same⟩
  · rintro ⟨cs, d, inner, splits, depth, inside, ordered, rfl⟩
    obtain rfl := inner_iff.mp inner
    exact ofText_of_derivation d splits ⟨depth, inside, ordered⟩

end Formula

namespace Derivation

def Written (xs : List Terminal) (v : Value) : Prop :=
  (∃ n, v = .number n) ∨ ∃ s, v = .text s ∧ .text s ∈ xs

theorem Written.mono {xs ys : List Terminal} {v : Value} (h : Written xs v)
    (more : ∀ x ∈ xs, x ∈ ys) : Written ys v :=
  h.imp_right fun ⟨s, text, mem⟩ => ⟨s, text, more _ mem⟩

mutual
theorem Operand.written (d : Operand) {v : Value} (h : v ∈ d.formula.literals) :
    Written d.terminals v := by
  cases d with
  | number n => exact Or.inl ⟨n, List.mem_singleton.mp h⟩
  | text s => exact Or.inr ⟨s, List.mem_singleton.mp h, List.mem_singleton_self _⟩
  | cell a => exact nomatch h
  | parentheses inner =>
    exact (inner.written h).mono fun x hx => by simp [Operand.terminals, hx]
  | minus inner =>
    rw [Operand.formula_minus] at h
    rcases Formula.of_mem_literals_negated h with number | own
    · exact Or.inl number
    · exact (inner.written own).mono fun x hx => List.mem_cons_of_mem _ hx
  | reduction op arguments => exact nomatch h
  | choice left cmp right yes no =>
    simp only [Operand.formula, Formula.literals, List.mem_append] at h
    rcases h with ((h | h) | h) | h
    · exact (left.written h).mono fun x hx => by simp [Operand.terminals, hx]
    · exact (right.written h).mono fun x hx => by simp [Operand.terminals, hx]
    · exact (yes.written h).mono fun x hx => by simp [Operand.terminals, hx]
    · exact (no.written h).mono fun x hx => by simp [Operand.terminals, hx]

theorem Expression.written (d : Expression) {v : Value} (h : v ∈ d.formula.literals) :
    Written d.terminals v := by
  cases d with
  | chain first rest =>
    rw [Expression.formula_chain] at h
    rcases Formula.of_mem_literals_ofChain h with head | ⟨p, hp, later⟩
    · exact (first.written head).mono fun x hx => List.mem_append_left _ hx
    · exact (rest.written hp later).mono fun x hx => List.mem_append_right _ hx

theorem Tail.written (d : Tail) {p : Operator × Formula} (hp : p ∈ d.operands) {v : Value}
    (h : v ∈ p.2.literals) : Written d.terminals v := by
  cases d with
  | nil => exact nomatch hp
  | cons op operand rest =>
    rcases List.mem_cons.mp hp with rfl | hp
    · exact (operand.written h).mono fun x hx => by simp [Tail.terminals, hx]
    · exact (rest.written hp h).mono fun x hx => by simp [Tail.terminals, hx]
end

end Derivation

theorem Terminal.Splits.subset_of_text {cs : List Char} {xs : List Terminal} (h : Splits cs xs)
    {s : String} (mem : .text s ∈ xs) : s.toList ⊆ cs := by
  induction h with
  | done => exact nomatch mem
  | @next blanks piece rest x xs blank spelled others ih =>
    rcases List.mem_cons.mp mem with rfl | later
    · cases spelled
      have quoted : s.toList ⊆ (Formula.quoted s).toList := by
        intro c hc
        rw [Formula.quoted, String.toList_ofList]
        have inside : c ∈ s.toList.flatMap fun c => if c = '"' then ['"', '"'] else [c] :=
          List.mem_flatMap.mpr ⟨c, hc, by split <;> simp_all⟩
        simp [inside]
      exact fun c hc =>
        List.mem_append_right _ (List.mem_append_left _ (quoted hc))
    · exact fun c hc => List.mem_append_right _ (List.mem_append_right _ (ih later hc))

theorem Text.trim_subset (cs : List Char) : trim cs ⊆ cs := fun c hc => by
  have left := List.mem_reverse.mp ((List.dropWhile_suffix _).mem (List.mem_reverse.mp hc))
  exact (List.dropWhile_suffix _).mem left

theorem Formula.body_subset (text : String) : body text ⊆ text.toList := by
  unfold body
  split
  · rename_i rest trimmed
    exact fun c hc => Text.trim_subset _ (trimmed ▸ List.mem_cons_of_mem _ hc)
  · exact Text.trim_subset _

/-- The constants of a formula that is read are numbers, and texts with characters of its text. -/
theorem Formula.of_mem_literals_ofText {e : Extent} {text : String} {f : Formula}
    (h : ofText e text = .ok f) {v : Value} (hv : v ∈ f.literals) :
    (∃ n, v = .number n) ∨ ∃ s, v = .text s ∧ s.toList ⊆ text.toList := by
  obtain ⟨d, splits, -, rfl⟩ := exists_derivation h
  refine (d.written hv).imp_right fun ⟨s, same, mem⟩ => ⟨s, same, ?_⟩
  exact fun c hc => body_subset text (splits.subset_of_text mem hc)

end ReactiveSheet
