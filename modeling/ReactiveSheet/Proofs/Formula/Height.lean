import ReactiveSheet.Proofs.Formula.Levels
import ReactiveSheet.Proofs.Sheet.Edit

/-!
Formulas that are read from text are small enough to be walked over, and every cell takes them.

The levels of a text bound the height of its formula. Within one level a formula can grow by two
nodes, by a function and by a chain in one of its arguments, so it is at most twice as high as its
text has levels. A chain has no level of its own unless it is an operand and stands in parentheses;
hence the two bounds in `Low`, of which the induction needs both.
-/

namespace ReactiveSheet.Formula

open Grammar (Argument Expression Operand)

def height : Formula → Nat
  | .literal _ => 1
  | .reference _ => 1
  | .reduction _ _ => 1
  | .chain first _ second rest => max (max (height first) (height second)) (heightRest rest) + 1
  | .choice left _ right yes no =>
    max (max (height left) (height right)) (max (height yes) (height no)) + 1
where
  heightRest : List (Operator × Formula) → Nat
    | [] => 0
    | (_, operand) :: rest => max (height operand) (heightRest rest)

theorem heightRest_le_iff {rest : List (Operator × Formula)} {n : Nat} :
    height.heightRest rest ≤ n ↔ ∀ p ∈ rest, p.2.height ≤ n := by
  induction rest with
  | nil => simp [height.heightRest]
  | cons p rest ih => simp [height.heightRest, ih]

/-- A formula is at most twice as high as its text has levels, and less than that as an operand,
with the parentheses that it may need. -/
structure Low (f : Formula) : Prop where
  whole : f.height ≤ 2 * f.levels
  operand : f.height + 1 ≤ 2 * enclosedLevels f f.levels

theorem Low.of_operand {f : Formula} (plain : enclosedLevels f f.levels = f.levels)
    (h : f.height + 1 ≤ 2 * f.levels) : f.Low :=
  ⟨Nat.le_of_succ_le h, by rwa [plain]⟩

theorem Low.operand_le {f : Formula} {n : Nat} (low : f.Low)
    (h : enclosedLevels f f.levels ≤ n) : f.height ≤ 2 * n - 1 :=
  Nat.le_sub_of_add_le (Nat.le_trans low.operand (Nat.mul_le_mul_left 2 h))

theorem low_leaf {f : Formula} (plain : enclosedLevels f f.levels = f.levels)
    (leaf : f.height = 1) : f.Low := by
  have := levels_pos f
  exact .of_operand plain (by omega)

theorem low_chain {first second : Formula} {op : Operator} {rest : List (Operator × Formula)}
    (low₁ : first.Low) (low₂ : second.Low) (low₃ : ∀ p ∈ rest, p.2.Low) :
    (chain first op second rest).Low := by
  let n := (chain first op second rest).levels
  have fits : max (max (enclosedLevels first first.levels) (enclosedLevels second second.levels))
      (levels.levelsRest rest) ≤ n := by simp only [n, levels, Nat.le_refl]
  rw [Nat.max_le, Nat.max_le, levelsRest_le_iff] at fits
  have h₁ : first.height ≤ 2 * n - 1 := low₁.operand_le fits.1.1
  have h₂ : second.height ≤ 2 * n - 1 := low₂.operand_le fits.1.2
  have h₃ : height.heightRest rest ≤ 2 * n - 1 :=
    heightRest_le_iff.mpr fun p hp => (low₃ p hp).operand_le (fits.2 p hp)
  have pos : 0 < n := levels_pos _
  have whole : (chain first op second rest).height ≤ 2 * n := by
    rw [height]
    omega
  exact ⟨whole, Nat.succ_le_of_lt (Nat.lt_of_le_of_lt whole (by simp [enclosedLevels, n]))⟩

theorem low_choice {left right yes no : Formula} {cmp : Comparator} (low₁ : left.Low)
    (low₂ : right.Low) (low₃ : yes.Low) (low₄ : no.Low) : (choice left cmp right yes no).Low := by
  have h₁ := low₁.whole
  have h₂ := low₂.whole
  have h₃ := low₃.whole
  have h₄ := low₄.whole
  refine .of_operand rfl ?_
  rw [height, levels]
  omega

theorem low (f : Formula) : f.Low := by
  induction f with
  | literal v => exact low_leaf rfl rfl
  | reference a => exact low_leaf rfl rfl
  | reduction op cells => exact low_leaf rfl rfl
  | chain first op second rest ih₁ ih₂ ih₃ => exact low_chain ih₁ ih₂ ih₃
  | choice left cmp right yes no ih₁ ih₂ ih₃ ih₄ => exact low_choice ih₁ ih₂ ih₃ ih₄

/-- A formula that is read has only finite numbers and texts for constants, it reads cells inside
only, and there are no more than 128 nodes on a path from its root. So every cell of every sheet of
the extent takes it. -/
theorem read_formula_bounded (e : Extent) {text : String} {f : Formula}
    (h : ofText e text = .ok f) :
    (∀ a ∈ f.references, a ∈ e) ∧
      (∀ v ∈ f.literals, (∃ n : Float, v = .number n ∧ n.isFinite = true) ∨ ∃ s, v = .text s) ∧
      f.height ≤ 128 ∧
      ∀ (s : Sheet e) (a : Address), a ∈ e → ∃ t r, s.setFormula a f = .ok (t, r) := by
  have fits := fits_of_ofText h
  have inside : ∀ a ∈ f.references, a ∈ e := fun a ha =>
    fits.printable.mentions a (mem_references.mp ha)
  refine ⟨inside, fun v hv => ?_, ?_, fun s a ha => ?_⟩
  · cases fits.printable.literals v hv with
    | number finite => exact Or.inl ⟨_, rfl, finite⟩
    | text s => exact Or.inr ⟨s, rfl⟩
  · calc f.height ≤ 2 * f.levels := f.low.whole
      _ ≤ 2 * maxLevels := Nat.mul_le_mul_left 2 fits.levels_le
  · obtain ⟨⟨t, r⟩, done⟩ := s.edit_of_inside (.formula f) ha inside
    exact ⟨t, r, done⟩

/-- A choice with a minus sign in one branch and a rectangle in the other. -/
theorem read_formula_bounded_choice :
    let e : Extent := ⟨1, 1, by decide, by decide, by decide, by decide⟩
    let a : Address := ⟨0, 0⟩
    let f : Formula := .choice (.reference a) .equal (.literal (.text "x"))
      (.chain (.literal (.number 0)) .minus (.reference a) []) (.reduction .sum [a])
    let text : String := "=IF(A1=\"x\",-A1,SUM(A1:A1))"
    ofText e text = .ok f ∧ f.height = 3 ∧
      ∃ t r, (Sheet.blank e).setFormula a f = .ok (t, r) := by
  intro e a f text
  have tokens : Tokens.ofText (body text) =
      .next (.name "IF") (.next (.punctuation .opening) (.next (.cell "A1")
        (.next (.comparator .equal) (.next (.text "x") (.next (.punctuation .comma)
          (.next (.operator .minus) (.next (.cell "A1") (.next (.punctuation .comma)
            (.next (.name "SUM") (.next (.punctuation .opening) (.next (.cell "A1")
              (.next (.punctuation .colon) (.next (.cell "A1") (.next (.punctuation .closing)
                (.next (.punctuation .closing) .done))))))))))))))) := by cbv
  have cell (n : Nat) (ts : Tokens) :
      Operand e (n + 1) (.next (.cell "A1") ts) (.reference a) ts := .reference ts rfl
  have conditional : Text.lowered "IF".toList = ['i', 'f'] := by decide
  have between : e.cellsBetween a a = .ok [a] := by cbv
  have corners (ts : Tokens) : Argument e (.next (.cell "A1") (.next (.punctuation .colon)
      (.next (.cell "A1") ts))) [a] ts := .rectangle ts rfl rfl between
  have derived : Expression (Operand e maxLevels) (Tokens.ofText (body text)) f .done := by
    rw [tokens]
    refine .chain (.choice conditional (.chain (cell 62 _) (.nil _)) (.chain (.text "x" _) (.nil _))
      (.chain (.minus (cell 61 _)) (.nil _)) ?_) (.nil _)
    refine .chain (.reduction (by decide) (Reduction.ofName?_name .sum) ?_) (.nil _)
    exact .cons (corners _) (.nil _)
  have read : ofText e text = .ok f := ofTokens_eq_ok_iff.mpr derived
  obtain ⟨-, -, -, taken⟩ := read_formula_bounded e read
  exact ⟨read, by decide, taken (Sheet.blank e) a (by decide)⟩

end ReactiveSheet.Formula
