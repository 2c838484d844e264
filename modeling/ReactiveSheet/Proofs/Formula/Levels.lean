import ReactiveSheet.Proofs.Address.Rectangle
import ReactiveSheet.Proofs.Formula.Derivation
import ReactiveSheet.Proofs.Formula.Scan

/-!
How deep the text of a formula nests, and that this is never deeper than the text from which the
formula was read.

A text spends a level on each parenthesis, minus sign, function and constant. What is printed has
parentheses around the chains among operands only, and a minus sign only before the digits of a
number below zero. Such a number comes from a text with a minus sign as well, because digits alone
are never a number below zero.
-/

namespace ReactiveSheet

/-- A token that, if it is a number, is a finite one that is not below zero. -/
def Token.Plain (t : Token) : Prop := ∀ n, t = .number n → n.isFinite = true ∧ ¬ n < 0

def Tokens.Plain : Tokens → Prop
  | .done => True
  | .broken _ => True
  | .next t rest => t.Plain ∧ rest.Plain

namespace Lexeme

variable {c : Char} {tail rest : List Char} {t : Token}

theorem float?_of_startsNumber (h : startsNumber c tail = true) (cs : List Char) :
    Numeral.float? (c :: cs) = Numeral.magnitude? (c :: cs) := by
  have apart (sign : Char) (hs : startsNumber sign tail = false) : c ≠ sign := by
    rintro rfl
    exact Bool.noConfusion (h.symm.trans hs)
  exact Numeral.float?_of_unsigned (apart '-' rfl) (apart '+' rfl) cs

theorem Scanned.plain (h : Scanned c tail t rest) : t.Plain := by
  cases h with
  | punctuation symbol => exact fun n h => nomatch h
  | operator symbol => exact fun n h => nomatch h
  | comparator known split => exact fun n h => nomatch h
  | text quote closes => exact fun n h => nomatch h
  | number start read finite =>
    rintro n ⟨⟩
    rw [float?_of_startsNumber start] at read
    exact ⟨finite, Numeral.magnitude?_nonneg read⟩
  | name start =>
    unfold Lexeme.name
    dsimp only
    split
    · exact fun n h => nomatch h
    · exact fun n h => nomatch h

end Lexeme

theorem Tokens.scan_plain (total : Nat) (cs : List Char) : (scan total cs).Plain := by
  fun_induction scan total cs with
  | case1 => trivial
  | case2 => trivial
  | case3 cs c tail visible lexeme h ih => exact ⟨(Lexeme.scanned_scan h).plain, ih⟩

namespace Formula

def constantLevels (v : Value) : Nat :=
  match v with
  | .number n => if n < 0 then 2 else 1
  | _ => 1

def enclosedLevels (f : Formula) (levels : Nat) : Nat :=
  match f with
  | .chain .. => levels + 1
  | _ => levels

/-- The levels that the text of a formula takes. -/
def levels : Formula → Nat
  | .literal v => constantLevels v
  | .reference _ => 1
  | .reduction _ _ => 1
  | .chain first _ second rest =>
    max (max (enclosedLevels first (levels first)) (enclosedLevels second (levels second)))
      (levelsRest rest)
  | .choice left _ right yes no =>
    max (max (levels left) (levels right)) (max (levels yes) (levels no)) + 1
where
  levelsRest : List (Operator × Formula) → Nat
    | [] => 0
    | (_, operand) :: rest => max (enclosedLevels operand (levels operand)) (levelsRest rest)

variable {f : Formula} {n : Nat}

theorem levelsRest_le_iff {rest : List (Operator × Formula)} :
    levels.levelsRest rest ≤ n ↔ ∀ p ∈ rest, enclosedLevels p.2 p.2.levels ≤ n := by
  induction rest with
  | nil => simp [levels.levelsRest]
  | cons p rest ih => simp [levels.levelsRest, ih]

theorem le_enclosedLevels (f : Formula) (n : Nat) : n ≤ enclosedLevels f n := by
  cases f with
  | chain => exact Nat.le_succ n
  | _ => exact Nat.le_refl n

theorem enclosedLevels_le (f : Formula) (n : Nat) : enclosedLevels f n ≤ n + 1 := by
  cases f with
  | chain => exact Nat.le_refl (n + 1)
  | _ => exact Nat.le_succ n

theorem constantLevels_eq_or (v : Value) : constantLevels v = 1 ∨ constantLevels v = 2 := by
  cases v with
  | number n => exact (ite_eq_or_eq (n < 0) 2 1).symm
  | _ => exact Or.inl rfl

theorem levels_pos (f : Formula) : 0 < f.levels := by
  induction f with
  | literal v =>
    rcases constantLevels_eq_or v with one | two
    · exact Nat.lt_of_lt_of_eq Nat.one_pos one.symm
    · exact Nat.lt_of_lt_of_eq Nat.two_pos two.symm
  | reference a => exact Nat.one_pos
  | reduction op cells => exact Nat.one_pos
  | chain first op second rest ih₁ ih₂ ih₃ =>
    have inside := Nat.lt_of_lt_of_le ih₁ (le_enclosedLevels first first.levels)
    rw [levels]
    omega
  | choice left cmp right yes no ih₁ ih₂ ih₃ ih₄ => exact Nat.succ_pos _

inductive Constant : Value → Prop where
  | number {n : Float} (finite : n.isFinite = true) : Constant (.number n)
  | text (s : String) : Constant (.text s)

@[mk_iff]
structure Printable (e : Extent) (f : Formula) : Prop where
  literals : ∀ v ∈ f.literals, Constant v
  mentions : ∀ a ∈ f.mentions, a ∈ e

/-- A formula whose text takes no more than so many levels. -/
structure Fits (e : Extent) (n : Nat) (f : Formula) : Prop where
  printable : f.Printable e
  levels_le : f.levels ≤ n

structure FitsInside (e : Extent) (n : Nat) (f : Formula) : Prop where
  printable : f.Printable e
  levels_le : enclosedLevels f f.levels ≤ n

variable {e : Extent}

theorem FitsInside.fits (h : FitsInside e n f) : Fits e n f :=
  ⟨h.printable, Nat.le_trans (le_enclosedLevels f f.levels) h.levels_le⟩

theorem Fits.inside (h : Fits e n f) : FitsInside e (n + 1) f :=
  ⟨h.printable, Nat.le_trans (enclosedLevels_le f f.levels) (Nat.succ_le_succ h.levels_le)⟩

theorem printable_literal {v : Value} (h : Constant v) : (Formula.literal v).Printable e where
  literals := by simpa [literals] using h
  mentions := by simp [mentions]

theorem printable_reference {a : Address} (h : a ∈ e) : (Formula.reference a).Printable e where
  literals := by simp [literals]
  mentions := by simpa [mentions] using h

theorem printable_reduction {op : Reduction} {cells : List Address} (h : ∀ a ∈ cells, a ∈ e) :
    (Formula.reduction op cells).Printable e where
  literals := by simp [literals]
  mentions := h

theorem printable_chain {first second : Formula} {op : Operator}
    {rest : List (Operator × Formula)} :
    (Formula.chain first op second rest).Printable e ↔
      first.Printable e ∧ second.Printable e ∧ ∀ p ∈ rest, p.2.Printable e := by
  have constants : (∀ v ∈ literals.literalsRest rest, Constant v) ↔
      ∀ p ∈ rest, ∀ v ∈ p.2.literals, Constant v := by
    simp only [mem_literalsRest]
    exact ⟨fun h p hp v hv => h v ⟨p, hp, hv⟩, fun h v ⟨p, hp, hv⟩ => h p hp v hv⟩
  have cells : (∀ a ∈ mentions.mentionsRest rest, a ∈ e) ↔
      ∀ p ∈ rest, ∀ a ∈ p.2.mentions, a ∈ e := by
    simp only [mem_mentionsRest]
    exact ⟨fun h p hp a ha => h a ⟨p, hp, ha⟩, fun h a ⟨p, hp, ha⟩ => h p hp a ha⟩
  simp only [printable_iff, literals, mentions, List.forall_mem_append, constants, cells]
  grind

theorem printable_choice {left right yes no : Formula} {cmp : Comparator} :
    (Formula.choice left cmp right yes no).Printable e ↔
      left.Printable e ∧ right.Printable e ∧ yes.Printable e ∧ no.Printable e := by
  simp only [printable_iff, literals, mentions, List.forall_mem_append]
  grind

theorem fits_chain {first second : Formula} {op : Operator} {rest : List (Operator × Formula)} :
    Fits e n (.chain first op second rest) ↔
      FitsInside e n first ∧ FitsInside e n second ∧ ∀ p ∈ rest, FitsInside e n p.2 := by
  constructor
  · intro ⟨printable, le⟩
    obtain ⟨h₁, h₂, h₃⟩ := printable_chain.mp printable
    rw [levels, Nat.max_le, Nat.max_le, levelsRest_le_iff] at le
    exact ⟨⟨h₁, le.1.1⟩, ⟨h₂, le.1.2⟩, fun p hp => ⟨h₃ p hp, le.2 p hp⟩⟩
  · intro ⟨h₁, h₂, h₃⟩
    refine ⟨printable_chain.mpr ⟨h₁.printable, h₂.printable, fun p hp => (h₃ p hp).printable⟩, ?_⟩
    rw [levels, Nat.max_le, Nat.max_le, levelsRest_le_iff]
    exact ⟨⟨h₁.levels_le, h₂.levels_le⟩, fun p hp => (h₃ p hp).levels_le⟩

theorem fits_choice {left right yes no : Formula} {cmp : Comparator} :
    Fits e (n + 1) (.choice left cmp right yes no) ↔
      Fits e n left ∧ Fits e n right ∧ Fits e n yes ∧ Fits e n no := by
  constructor
  · intro ⟨printable, le⟩
    obtain ⟨h₁, h₂, h₃, h₄⟩ := printable_choice.mp printable
    rw [levels, Nat.succ_le_succ_iff, Nat.max_le, Nat.max_le, Nat.max_le] at le
    exact ⟨⟨h₁, le.1.1⟩, ⟨h₂, le.1.2⟩, ⟨h₃, le.2.1⟩, ⟨h₄, le.2.2⟩⟩
  · intro ⟨h₁, h₂, h₃, h₄⟩
    refine ⟨printable_choice.mpr ⟨h₁.printable, h₂.printable, h₃.printable, h₄.printable⟩, ?_⟩
    rw [levels, Nat.succ_le_succ_iff, Nat.max_le, Nat.max_le, Nat.max_le]
    exact ⟨⟨h₁.levels_le, h₂.levels_le⟩, h₃.levels_le, h₄.levels_le⟩

theorem fitsInside_number {x : Float} (finite : x.isFinite = true) (h : ¬ x < 0) :
    FitsInside e (n + 1) (.literal (.number x)) := by
  refine ⟨printable_literal (.number finite), ?_⟩
  change constantLevels (.number x) ≤ n + 1
  rw [constantLevels, if_neg h]
  exact Nat.le_add_left 1 n

theorem FitsInside.exists_succ (h : FitsInside e n f) : ∃ k, n = k + 1 :=
  Nat.exists_eq_add_one_of_ne_zero
    (Nat.pos_iff_ne_zero.mp (Nat.lt_of_lt_of_le (levels_pos f) h.fits.levels_le))

/-- A minus sign takes one level, and so does the difference from zero that stands for it. -/
theorem FitsInside.negated (h : FitsInside e n f) : FitsInside e (n + 1) f.negated := by
  obtain ⟨k, rfl⟩ := h.exists_succ
  fun_cases Formula.negated f with
  | case1 x =>
    obtain ⟨finite⟩ := h.printable.literals (.number x) (by simp [literals])
    refine ⟨printable_literal (.number (Numeral.isFinite_neg finite)), ?_⟩
    change constantLevels (.number (-x)) ≤ k + 1 + 1
    rcases constantLevels_eq_or (.number (-x)) with one | two
    · exact one ▸ Nat.le_add_left 1 (k + 1)
    · exact two ▸ Nat.le_add_left 2 k
  | case2 =>
    have zero : FitsInside e (k + 1) (.literal (.number 0)) := fitsInside_number rfl (by decide)
    exact (fits_chain.mpr ⟨zero, h, fun p hp => absurd hp List.not_mem_nil⟩).inside

end Formula

namespace Grammar

open Formula (Constant Fits FitsInside)

variable {e : Extent} {n : Nat}

/-- From plain tokens, only what has the property is derived, and plain ones are left. -/
def Keeps {α : Type} (P : α → Prop) (D : Rule α) : Prop :=
  ∀ ts x ts', D ts x ts' → ts.Plain → P x ∧ ts'.Plain

theorem mem_of_resolve {name : String} {a : Address} (h : Reader.resolve e name = .ok a) :
    a ∈ e := (Reader.resolve_eq_ok_iff.mp h).2

theorem argument_keeps : Keeps (fun cells => ∀ a ∈ cells, a ∈ e) (Argument e) := by
  intro ts cells ts' h plain
  cases h with
  | cell _ ha => exact ⟨List.forall_mem_singleton.mpr (mem_of_resolve ha), plain.2⟩
  | rectangle _ first last between =>
    exact ⟨fun a ha => Extent.mem_of_mem_cellsBetween between ha, plain.2.2.2⟩

theorem moreArguments_keeps : Keeps (fun cells => ∀ a ∈ cells, a ∈ e) (MoreArguments e) := by
  intro ts cells ts' h plain
  induction h with
  | nil => exact ⟨fun a ha => absurd ha List.not_mem_nil, plain⟩
  | cons first others ih =>
    obtain ⟨here, left⟩ := argument_keeps _ _ _ first plain.2
    obtain ⟨there, left⟩ := ih left
    exact ⟨List.forall_mem_append.mpr ⟨here, there⟩, left⟩

theorem arguments_keeps : Keeps (fun cells => ∀ a ∈ cells, a ∈ e) (Arguments e) := by
  intro ts cells ts' h plain
  cases h with
  | nil => exact ⟨fun a ha => absurd ha List.not_mem_nil, plain⟩
  | cons first others =>
    obtain ⟨here, left⟩ := argument_keeps _ _ _ first plain
    obtain ⟨there, left⟩ := moreArguments_keeps _ _ _ others left
    exact ⟨List.forall_mem_append.mpr ⟨here, there⟩, left⟩

variable {D : Rule Formula}

theorem chain_keeps {P : Formula → Prop} (h : Keeps P D) :
    Keeps (fun rest => ∀ p ∈ rest, P p.2) (Chain D) := by
  intro ts rest ts' derived plain
  induction derived with
  | nil => exact ⟨fun p hp => absurd hp List.not_mem_nil, plain⟩
  | cons op first others ih =>
    obtain ⟨here, left⟩ := h _ _ _ first plain.2
    obtain ⟨there, left⟩ := ih left
    exact ⟨List.forall_mem_cons.mpr ⟨here, there⟩, left⟩

theorem expression_keeps (h : Keeps (FitsInside e n) D) : Keeps (Fits e n) (Expression D) := by
  intro ts f ts' derived plain
  cases derived with
  | @chain first rest _ _ _ head others =>
    obtain ⟨here, left⟩ := h _ _ _ head plain
    obtain ⟨there, left⟩ := chain_keeps h _ _ _ others left
    refine ⟨?_, left⟩
    cases rest with
    | nil => exact here.fits
    | cons p rest =>
      obtain ⟨second, there⟩ := List.forall_mem_cons.mp there
      exact Formula.fits_chain.mpr ⟨here, second, there⟩

theorem primary_keeps (h : Keeps (FitsInside e n) D) :
    Keeps (FitsInside e (n + 1)) (Primary e D) := by
  have inner := expression_keeps h
  intro ts f ts' derived plain
  cases derived with
  | number x =>
    obtain ⟨finite, above⟩ := plain.1 x rfl
    exact ⟨Formula.fitsInside_number finite above, plain.2⟩
  | text s => exact ⟨⟨Formula.printable_literal (.text s), Nat.le_add_left 1 n⟩, plain.2⟩
  | reference _ ha =>
    exact ⟨⟨Formula.printable_reference (mem_of_resolve ha), Nat.le_add_left 1 n⟩, plain.2⟩
  | parentheses body =>
    obtain ⟨here, left⟩ := inner _ _ _ body plain.2
    exact ⟨here.inside, left.2⟩
  | minus operand =>
    obtain ⟨here, left⟩ := h _ _ _ operand plain.2
    exact ⟨here.negated, left⟩
  | reduction other known cells =>
    obtain ⟨here, left⟩ := arguments_keeps _ _ _ cells plain.2.2
    exact ⟨⟨Formula.printable_reduction here, Nat.le_add_left 1 n⟩, left.2⟩
  | @choice _ cmp _ _ _ _ _ _ _ _ _ known first second third fourth =>
    obtain ⟨h₁, left⟩ := inner _ _ _ first plain.2.2
    obtain ⟨h₂, left⟩ := inner _ _ _ second left.2
    obtain ⟨h₃, left⟩ := inner _ _ _ third left.2
    obtain ⟨h₄, left⟩ := inner _ _ _ fourth left.2
    have fits : Fits e (n + 1) (.choice _ cmp _ _ _) := Formula.fits_choice.mpr ⟨h₁, h₂, h₃, h₄⟩
    exact ⟨⟨fits.printable, fits.levels_le⟩, left.2⟩

theorem operand_keeps (e : Extent) (n : Nat) : Keeps (FitsInside e n) (Operand e n) := by
  induction n with
  | zero => exact fun ts f ts' h => h.elim
  | succ n ih => exact primary_keeps ih

end Grammar

/-- A formula that is read has a text that takes no more levels than there are. -/
theorem Formula.fits_of_ofText {e : Extent} {text : String} {f : Formula}
    (h : ofText e text = .ok f) : Fits e maxLevels f :=
  have derived := ofTokens_eq_ok_iff.mp h
  (Grammar.expression_keeps (Grammar.operand_keeps e maxLevels) _ _ _ derived
    (Tokens.scan_plain _ _)).1

end ReactiveSheet
