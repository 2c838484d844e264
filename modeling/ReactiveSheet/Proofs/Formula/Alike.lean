import Mathlib.Data.List.Forall2
import ReactiveSheet.Proofs.Decimal.Whole
import ReactiveSheet.Proofs.Formula.Evaluation

/-!
Values that are the same to whoever reads them.

Values are alike if they are the same but for the sign of zero. Every step of an evaluation passes
this on; the divisions of a chain do so because zero divisors are refused before.

Two numbers are equal by their size, and other values by their texts. On finite numbers and texts it
comes to the same, since no two sizes have the same text: there equality is sameness of what is
shown, and so it is an equivalence.
-/

namespace ReactiveSheet

namespace Value

/-- The same value, but for the sign of zero. -/
inductive Alike : Value → Value → Prop where
  | number {x y : Float} (h : Numeral.Alike x y) : Alike (.number x) (.number y)
  | text (s : String) : Alike (.text s) (.text s)
  | fault (cause : Fault) : Alike (.fault cause) (.fault cause)

def isNaN : Value → Bool
  | .number n => n.isNaN
  | _ => false

namespace Alike

variable {u v w : Value}

theorem refl : ∀ v, Alike v v
  | .number n => .number (.refl n)
  | .text s => .text s
  | .fault cause => .fault cause

theorem symm (h : Alike u v) : Alike v u := by
  cases h with
  | number h => exact .number h.symm
  | text s => exact .text s
  | fault cause => exact .fault cause

theorem trans (h : Alike u v) (k : Alike v w) : Alike u w := by
  cases h with
  | number h =>
    cases k with
    | number k => exact .number (h.trans k)
  | text s => exact k
  | fault cause => exact k

theorem of_beq (h : (u == v) = true) : Alike u v := by
  cases u with
  | number x =>
    cases v with
    | number y => exact .number (.of_beq h)
    | text s => exact absurd h Bool.noConfusion
    | fault cause => exact absurd h Bool.noConfusion
  | text s =>
    cases v with
    | number y => exact absurd h Bool.noConfusion
    | text s' =>
      obtain rfl : s = s' := eq_of_beq h
      exact .text s
    | fault cause => exact absurd h Bool.noConfusion
  | fault cause =>
    cases v with
    | number y => exact absurd h Bool.noConfusion
    | text s => exact absurd h Bool.noConfusion
    | fault cause' =>
      obtain rfl : cause = cause' := eq_of_beq h
      exact .fault cause

theorem beq (h : Alike u v) (number : u.isNaN = false) : (u == v) = true := by
  cases h with
  | number h => exact h.beq_self number
  | text s => exact beq_self_eq_true s
  | fault cause => exact beq_self_eq_true cause

theorem isNaN (h : Alike u v) : u.isNaN = v.isNaN := by
  cases h with
  | number h => exact h.isNaN
  | text s => rfl
  | fault cause => rfl

theorem display (h : Alike u v) : u.display = v.display := by
  cases h with
  | number h => exact h.textOf
  | text s => rfl
  | fault cause => rfl

end Alike

end Value

namespace Formula

/-- Both fail for the same reason, or both succeed with related results. -/
inductive Matches {α β : Type} (R : α → β → Prop) : Outcome α → Outcome β → Prop where
  | ok {a : α} {b : β} (h : R a b) : Matches R (.ok a) (.ok b)
  | error (cause : Fault) : Matches R (.error cause) (.error cause)

namespace Matches

variable {α β γ δ : Type} {R : α → β → Prop} {S : γ → δ → Prop}

theorem bind {x : Outcome α} {y : Outcome β} {f : α → Outcome γ} {g : β → Outcome δ}
    (h : Matches R x y) (k : ∀ a b, R a b → Matches S (f a) (g b)) :
    Matches S (x >>= f) (y >>= g) := by
  cases h with
  | ok h => exact k _ _ h
  | error cause => exact .error cause

theorem mapM {l : List α} {f : α → Outcome γ} {g : α → Outcome δ}
    (h : ∀ a ∈ l, Matches S (f a) (g a)) : Matches (List.Forall₂ S) (l.mapM f) (l.mapM g) := by
  induction l with
  | nil => exact .ok .nil
  | cons a l ih =>
    rw [List.mapM_cons, List.mapM_cons]
    apply (h a List.mem_cons_self).bind
    intro b c hbc
    apply (ih fun a ha => h a (List.mem_cons_of_mem _ ha)).bind
    intro bs cs hbcs
    exact .ok (.cons hbc hbcs)

end Matches

open Numeral (Alike)

theorem matches_numberOf {v w : Value} (h : v.Alike w) :
    Matches Alike (numberOf v) (numberOf w) := by
  cases h with
  | number h => exact .ok h
  | text s => exact .error _
  | fault cause => exact .error _

theorem matches_textOf {v w : Value} (h : v.Alike w) : Matches Eq (textOf v) (textOf w) := by
  cases h with
  | number h => exact .ok h.textOf
  | text s => exact .ok rfl
  | fault cause => exact .error _

theorem matches_finite {x y : Float} (h : Alike x y) : Matches Alike (finite x) (finite y) := by
  rw [finite, finite, h.isFinite]
  split
  · exact .ok h
  · exact .error _

theorem alike_foldl {op : Float → Float → Float}
    (hop : ∀ {x y z w}, Alike x y → Alike z w → Alike (op x z) (op y w)) {xs ys : List Float}
    (h : List.Forall₂ Alike xs ys) {x y : Float} (start : Alike x y) :
    Alike (xs.foldl op x) (ys.foldl op y) := by
  induction h generalizing x y with
  | nil => exact start
  | cons head _ ih => exact ih (hop start head)

theorem alike_sumOf {xs ys : List Float} (h : List.Forall₂ Alike xs ys) :
    Alike (sumOf xs) (sumOf ys) := alike_foldl .add h (.refl _)

theorem alike_differenceOf {xs ys : List Float} (h : List.Forall₂ Alike xs ys) :
    Alike (differenceOf xs) (differenceOf ys) := by
  cases h with
  | nil => exact .refl _
  | cons head rest => exact alike_foldl .sub rest head

theorem matches_reduceNumbers (op : Reduction) {xs ys : List Float}
    (h : List.Forall₂ Alike xs ys) :
    Matches Alike (reduceNumbers op xs) (reduceNumbers op ys) := by
  cases op with
  | sum => exact matches_finite (alike_sumOf h)
  | product => exact matches_finite (alike_foldl .mul h (.refl _))
  | difference => exact matches_finite (alike_differenceOf h)
  | average =>
    unfold reduceNumbers
    cases h with
    | nil => exact .error _
    | cons head rest =>
      have sums := alike_sumOf (.cons head rest)
      dsimp only [List.isEmpty_cons]
      rw [List.length_cons, List.length_cons, rest.length_eq]
      exact matches_finite (sums.div_left _)
  | join => exact .error _

variable {cells cells' : Address → Option Value}

theorem matches_cellValue {a : Address} (h : Option.Rel Value.Alike (cells a) (cells' a)) :
    Matches Value.Alike (cellValue cells a) (cellValue cells' a) := by
  unfold cellValue
  generalize cells a = v at h ⊢
  generalize cells' a = w at h ⊢
  cases h with
  | none => exact .error _
  | some h => exact .ok h

theorem matches_reduce (op : Reduction) {addrs : List Address}
    (h : ∀ a ∈ addrs, Option.Rel Value.Alike (cells a) (cells' a)) :
    Matches Value.Alike (reduce cells op addrs) (reduce cells' op addrs) := by
  have numbers : Matches (List.Forall₂ Alike) (addrs.mapM (cellValue cells · >>= numberOf))
      (addrs.mapM (cellValue cells' · >>= numberOf)) :=
    .mapM fun a ha => (matches_cellValue (h a ha)).bind fun _ _ => matches_numberOf
  have texts : Matches (List.Forall₂ Eq) (addrs.mapM (cellValue cells · >>= textOf))
      (addrs.mapM (cellValue cells' · >>= textOf)) :=
    .mapM fun a ha => (matches_cellValue (h a ha)).bind fun _ _ => matches_textOf
  have reduced {xs ys : List Float} (k : List.Forall₂ Alike xs ys) :
      Matches Value.Alike (reduceNumbers op xs >>= fun n => pure (.number n))
        (reduceNumbers op ys >>= fun n => pure (.number n)) :=
    (matches_reduceNumbers op k).bind fun _ _ n => .ok (.number n)
  unfold reduce
  cases op with
  | join =>
    apply texts.bind
    intro xs ys k
    rw [List.forall₂_eq_eq_eq] at k
    exact k ▸ .ok (.text _)
  | sum => exact numbers.bind fun _ _ => reduced
  | product => exact numbers.bind fun _ _ => reduced
  | difference => exact numbers.bind fun _ _ => reduced
  | average => exact numbers.bind fun _ _ => reduced

def SameTerms : List (Operator × Float) → List (Operator × Float) → Prop :=
  List.Forall₂ fun p q => p.1 = q.1 ∧ Alike p.2 q.2

theorem matches_runChain {total total' term term' : Float} {rest rest' : List (Operator × Float)}
    (h₁ : Alike total total') (h₂ : Alike term term') (h₃ : SameTerms rest rest') :
    Matches Alike (runChain total term rest) (runChain total' term' rest') := by
  induction h₃ generalizing total total' term term' with
  | nil => exact matches_finite (h₁.add h₂)
  | @cons p q rest rest' head tail ih =>
    obtain ⟨op, n⟩ := p
    obtain ⟨op', n'⟩ := q
    obtain ⟨rfl, hn⟩ := head
    cases op with
    | plus => exact ih (h₁.add h₂) hn
    | minus => exact ih (h₁.add h₂) hn.neg
    | times => exact ih h₁ (h₂.mul hn)
    | dividedBy =>
      simp only [runChain]
      rw [← hn.beq (.refl 0.0)]
      split
      · exact .error _
      · rename_i divisor
        exact ih h₁ (h₂.div hn (Bool.not_eq_true _ ▸ divisor))

theorem compareNumbers_alike (cmp : Comparator) {x y z w : Float} (h : Alike x y) (k : Alike z w) :
    compareNumbers cmp x z = compareNumbers cmp y w := by
  cases cmp with
  | greater => exact decide_eq_decide.mpr (k.lt h)
  | less => exact decide_eq_decide.mpr (h.lt k)
  | equal => exact h.beq k
  | notEqual => exact congrArg (!·) (h.beq k)
  | atLeast => exact decide_eq_decide.mpr (k.le h)
  | atMost => exact decide_eq_decide.mpr (h.le k)

theorem compareValues_alike (cmp : Comparator) {u v w x : Value} (h : u.Alike v) (k : w.Alike x) :
    compareValues cmp u w = compareValues cmp v x := by
  have shown₁ := h.display
  have shown₂ := k.display
  cases h with
  | number h =>
    cases k with
    | number k => exact congrArg Except.ok (compareNumbers_alike cmp h k)
    | text s => simp only [compareValues, shown₁]
    | fault cause => rfl
  | text s =>
    cases k with
    | number k => simp only [compareValues, shown₂]
    | text s => rfl
    | fault cause => rfl
  | fault cause => rfl

theorem sameRest_iff {rest rest' : List (Operator × Formula)} :
    same.sameRest rest rest' = true ↔
      List.Forall₂ (fun p q => p.1 = q.1 ∧ p.2.same q.2 = true) rest rest' := by
  induction rest generalizing rest' with
  | nil => cases rest' <;> simp [same.sameRest]
  | cons p rest ih =>
    obtain ⟨op, operand⟩ := p
    cases rest' with
    | nil => simp [same.sameRest]
    | cons q rest' => simp [same.sameRest, ih]

theorem matches_operands {rest rest' : List (Operator × Formula)}
    (h : List.Forall₂ (fun p q => p.1 = q.1 ∧
      Matches Value.Alike (outcome cells p.2) (outcome cells' q.2)) rest rest') :
    Matches SameTerms (outcome.operands cells rest) (outcome.operands cells' rest') := by
  induction h with
  | nil => exact .ok .nil
  | @cons p q rest rest' head tail ih =>
    obtain ⟨op, operand⟩ := p
    obtain ⟨op', operand'⟩ := q
    obtain ⟨rfl, value⟩ := head
    unfold outcome.operands
    apply value.bind
    intro v w hv
    apply (matches_numberOf hv).bind
    intro n n' hn
    exact ih.bind fun ns ns' hns => .ok (.cons ⟨rfl, hn⟩ hns)

theorem forall₂_imp_of_mem {α β : Type} {R S : α → β → Prop} {l : List α} {m : List β}
    (h : List.Forall₂ R l m) (k : ∀ a ∈ l, ∀ b, R a b → S a b) : List.Forall₂ S l m := by
  induction h with
  | nil => exact .nil
  | cons head _ ih =>
    exact .cons (k _ List.mem_cons_self _ head) (ih fun a ha => k a (List.mem_cons_of_mem _ ha))

theorem mentionsRest_congr {rest rest' : List (Operator × Formula)}
    (h : List.Forall₂ (fun p q => p.2.mentions = q.2.mentions) rest rest') :
    mentions.mentionsRest rest = mentions.mentionsRest rest' := by
  induction h with
  | nil => rfl
  | cons head _ ih => exact congrArg₂ (· ++ ·) head ih

theorem mentions_of_same {f g : Formula} (h : f.same g = true) : f.mentions = g.mentions := by
  induction f generalizing g with
  | literal v =>
    cases g <;> simp only [same, Bool.false_eq_true] at h
    rfl
  | reference a =>
    cases g <;> simp only [same, Bool.false_eq_true, decide_eq_true_eq] at h
    rw [h]
  | reduction op addrs =>
    cases g <;> simp only [same, Bool.false_eq_true, Bool.and_eq_true, decide_eq_true_eq] at h
    rw [mentions, mentions, h.2]
  | chain first op second rest ih₁ ih₂ ih₃ =>
    cases g <;> simp only [same, Bool.false_eq_true, Bool.and_eq_true, decide_eq_true_eq] at h
    obtain ⟨⟨⟨hfirst, rfl⟩, hsecond⟩, hrest⟩ := h
    have tails := mentionsRest_congr
      (forall₂_imp_of_mem (sameRest_iff.mp hrest) fun p hp q k => ih₃ p hp k.2)
    rw [mentions, mentions, ih₁ hfirst, ih₂ hsecond, tails]
  | choice left cmp right yes no ih₁ ih₂ ih₃ ih₄ =>
    cases g <;> simp only [same, Bool.false_eq_true, Bool.and_eq_true, decide_eq_true_eq] at h
    obtain ⟨⟨⟨⟨hleft, rfl⟩, hright⟩, hyes⟩, hno⟩ := h
    rw [mentions, mentions, ih₁ hleft, ih₂ hright, ih₃ hyes, ih₄ hno]

theorem matches_chain {first first' second second' : Formula} (op : Operator)
    {rest rest' : List (Operator × Formula)}
    (head : Matches Value.Alike (outcome cells first) (outcome cells' first'))
    (next : Matches Value.Alike (outcome cells second) (outcome cells' second'))
    (others : Matches SameTerms (outcome.operands cells rest) (outcome.operands cells' rest')) :
    Matches Value.Alike (outcome cells (.chain first op second rest))
      (outcome cells' (.chain first' op second' rest')) := by
  unfold outcome
  apply head.bind
  intro v w hv
  apply (matches_numberOf hv).bind
  intro m m' hm
  apply next.bind
  intro v w hv
  apply (matches_numberOf hv).bind
  intro n n' hn
  apply others.bind
  intro ns ns' hns
  have terms : SameTerms ((op, n) :: ns) ((op, n') :: ns') := .cons ⟨rfl, hn⟩ hns
  exact (matches_runChain (Numeral.Alike.refl 0.0) hm terms).bind fun _ _ k => .ok (.number k)

theorem matches_choice {left left' right right' yes yes' no no' : Formula} (cmp : Comparator)
    (hleft : Matches Value.Alike (outcome cells left) (outcome cells' left'))
    (hright : Matches Value.Alike (outcome cells right) (outcome cells' right'))
    (hyes : Matches Value.Alike (outcome cells yes) (outcome cells' yes'))
    (hno : Matches Value.Alike (outcome cells no) (outcome cells' no')) :
    Matches Value.Alike (outcome cells (.choice left cmp right yes no))
      (outcome cells' (.choice left' cmp right' yes' no')) := by
  unfold outcome
  apply hleft.bind
  intro v v' hv
  apply hright.bind
  intro w w' hw
  rw [compareValues_alike cmp hv hw]
  cases compareValues cmp v' w' with
  | error cause => exact .error cause
  | ok holds =>
    cases holds with
    | true => exact hyes
    | false => exact hno

theorem matches_outcome {f g : Formula} (h : f.same g = true)
    (read : ∀ a ∈ f.mentions, Option.Rel Value.Alike (cells a) (cells' a)) :
    Matches Value.Alike (outcome cells f) (outcome cells' g) := by
  induction f generalizing g with
  | literal v =>
    cases g <;> simp only [same, Bool.false_eq_true] at h
    exact .ok (.of_beq h)
  | reference a =>
    cases g <;> simp only [same, Bool.false_eq_true, decide_eq_true_eq] at h
    subst h
    exact matches_cellValue (read _ (by simp [mentions]))
  | reduction op addrs =>
    cases g <;> simp only [same, Bool.false_eq_true, Bool.and_eq_true, decide_eq_true_eq] at h
    obtain ⟨rfl, rfl⟩ := h
    exact matches_reduce op read
  | chain first op second rest ih₁ ih₂ ih₃ =>
    cases g <;> simp only [same, Bool.false_eq_true, Bool.and_eq_true, decide_eq_true_eq] at h
    obtain ⟨⟨⟨hfirst, rfl⟩, hsecond⟩, hrest⟩ := h
    simp only [mentions, List.mem_append] at read
    have head := ih₁ hfirst fun a ha => read a (Or.inl (Or.inl ha))
    have next := ih₂ hsecond fun a ha => read a (Or.inl (Or.inr ha))
    have others : Matches SameTerms (outcome.operands cells rest) (outcome.operands cells' _) :=
      matches_operands (forall₂_imp_of_mem (sameRest_iff.mp hrest) fun p hp q k => ⟨k.1,
        ih₃ p hp k.2 fun a ha => read a (Or.inr (mem_mentionsRest.mpr ⟨p, hp, ha⟩))⟩)
    exact matches_chain op head next others
  | choice left cmp right yes no ih₁ ih₂ ih₃ ih₄ =>
    cases g <;> simp only [same, Bool.false_eq_true, Bool.and_eq_true, decide_eq_true_eq] at h
    obtain ⟨⟨⟨⟨hleft, rfl⟩, hright⟩, hyes⟩, hno⟩ := h
    simp only [mentions, List.mem_append] at read
    exact matches_choice cmp
      (ih₁ hleft fun a ha => read a (Or.inl (Or.inl (Or.inl ha))))
      (ih₂ hright fun a ha => read a (Or.inl (Or.inl (Or.inr ha))))
      (ih₃ hyes fun a ha => read a (Or.inl (Or.inr ha)))
      (ih₄ hno fun a ha => read a (Or.inr ha))

/-- Formulas that are the same give alike values where the cells that they read hold such. -/
theorem evaluate_alike {f g : Formula} (h : f.same g = true)
    (read : ∀ a ∈ f.references, Option.Rel Value.Alike (cells a) (cells' a)) :
    (f.evaluate cells).Alike (g.evaluate cells') := by
  have outcomes := matches_outcome h fun a ha => read a (mem_references.mpr ha)
  unfold evaluate
  generalize outcome cells f = x at outcomes ⊢
  generalize outcome cells' g = y at outcomes ⊢
  cases outcomes with
  | ok h => exact h
  | error cause => exact .fault cause

theorem references_of_same {f g : Formula} (h : f.same g = true) :
    f.references = g.references := by
  rw [references, references, mentions_of_same h]

end Formula

namespace Value

def shown : Value → String
  | .number n => Numeral.textInParts n
  | .text s => s
  | .fault cause => cause.marker

theorem shown_eq_display (v : Value) : v.shown = v.display := by
  cases v with
  | number n => exact Numeral.textInParts_eq n
  | text s => rfl
  | fault cause => rfl

/-- A finite number or a text. -/
inductive Ordinary : Value → Prop where
  | number {n : Float} (finite : n.isFinite = true) : Ordinary (.number n)
  | text (s : String) : Ordinary (.text s)

end Value

namespace Formula

variable {v w : Value}

/-- Ordinary values are equal if they are shown alike. -/
theorem compareValues_equal (hv : v.Ordinary) (hw : w.Ordinary) :
    compareValues .equal v w = .ok (decide (v.shown = w.shown)) := by
  rw [v.shown_eq_display, w.shown_eq_display]
  cases hv with
  | text s =>
    cases hw with
    | text t => rfl
    | number finite => rfl
  | number finite =>
    cases hw with
    | text t => rfl
    | number finite' =>
      refine congrArg Except.ok (Bool.eq_iff_iff.mpr ?_)
      rw [decide_eq_true_iff]
      exact (Numeral.textOf_eq_iff finite finite').symm

theorem equal_iff (hv : v.Ordinary) (hw : w.Ordinary) :
    compareValues .equal v w = .ok true ↔ v.shown = w.shown := by
  rw [compareValues_equal hv hw, Except.ok.injEq, decide_eq_true_iff]

theorem compareValues_notEqual (v w : Value) :
    compareValues .notEqual v w = (compareValues .equal v w).map (! ·) := by
  cases v <;> cases w <;> rfl

section Choice

variable {cells : Address → Option Value} {left right : Formula} (yes no : Formula)

theorem outcome_choice (cmp : Comparator) (first : outcome cells left = .ok v)
    (second : outcome cells right = .ok w) : outcome cells (.choice left cmp right yes no) =
      compareValues cmp v w >>= fun holds =>
        if holds then outcome cells yes else outcome cells no := by
  rw [outcome, first, second]
  rfl

theorem evaluate_equal (hv : v.Ordinary) (hw : w.Ordinary) (first : outcome cells left = .ok v)
    (second : outcome cells right = .ok w) :
    evaluate cells (.choice left .equal right yes no) =
      if v.shown = w.shown then evaluate cells yes else evaluate cells no := by
  rw [evaluate, outcome_choice yes no .equal first second, compareValues_equal hv hw]
  by_cases same : v.shown = w.shown
  · rw [if_pos same, decide_eq_true same]
    rfl
  · rw [if_neg same, decide_eq_false same]
    rfl

/-- A choice by difference is the choice by equality taken the other way round. -/
theorem outcome_notEqual (cells : Address → Option Value) (left right : Formula) :
    outcome cells (.choice left .notEqual right yes no) =
      outcome cells (.choice left .equal right no yes) := by
  cases first : outcome cells left with
  | error cause => simp only [outcome, first, bind, Except.bind]
  | ok v =>
    cases second : outcome cells right with
    | error cause => simp only [outcome, first, second, bind, Except.bind]
    | ok w =>
      rw [outcome_choice _ _ _ first second, outcome_choice _ _ _ first second,
        compareValues_notEqual]
      cases compareValues .equal v w with
      | error cause => rfl
      | ok equal => cases equal <;> rfl

end Choice

/-- Equality of finite numbers and texts is sameness of what is shown, also between numbers, and so
it is an equivalence relation. A choice between two formulas goes by it, and a choice by difference
is the choice by equality taken the other way round, whatever the formulas are worth. -/
theorem equality_is_sameness_of_texts :
    (∀ v w : {v : Value // v.Ordinary},
      compareValues .equal v w = .ok (decide (v.val.shown = w.val.shown))) ∧
    Equivalence (fun v w : {v : Value // v.Ordinary} => compareValues .equal v w = .ok true) ∧
    (∀ (cells : Address → Option Value) (left right yes no : Formula)
      (v w : {v : Value // v.Ordinary}),
      outcome cells left = .ok v.val → outcome cells right = .ok w.val →
        evaluate cells (.choice left .equal right yes no) =
          if v.val.shown = w.val.shown then evaluate cells yes else evaluate cells no) ∧
    ∀ (cells : Address → Option Value) (left right yes no : Formula),
      evaluate cells (.choice left .notEqual right yes no) =
        evaluate cells (.choice left .equal right no yes) := by
  refine ⟨fun v w => compareValues_equal v.property w.property, ?equivalence, ?choice, ?swap⟩
  case equivalence =>
    have same (v w : {v : Value // v.Ordinary}) := equal_iff v.property w.property
    constructor
    · intro v
      exact (same v v).mpr rfl
    · intro v w h
      exact (same w v).mpr ((same v w).mp h).symm
    · intro u v w h k
      exact (same u w).mpr (((same u v).mp h).trans ((same v w).mp k))
  case choice =>
    intro cells left right yes no v w first second
    exact evaluate_equal yes no v.property w.property first second
  case swap =>
    intro cells left right yes no
    rw [evaluate, evaluate, outcome_notEqual]

end Formula

end ReactiveSheet
