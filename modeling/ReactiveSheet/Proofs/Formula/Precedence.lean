import ReactiveSheet.Proofs.Formula.Evaluation

/-!
A chain of numbers is the sum of its terms.

Multiplication and division bind tighter than addition and subtraction: a chain splits at its plus
and minus signs into terms, each of them a product and quotient from left to right, and it is worth
the sum of the terms from left to right. `runChain` reads the chain only once, with the sum of the
terms that are complete and the term at which it is. `Term.links` puts a term back into a chain, and
with `joined_split` and `split_joined` there is one way to split a chain and no other. No law of
arithmetic is used: the operations are the same on both sides and come in the same order, so they
are rounded alike.
-/

namespace ReactiveSheet.Formula

inductive Factor where
  | times (n : Float)
  | dividedBy (n : Float)

/-- A term of a chain: the operand that a plus or minus sign introduces, and its factors. -/
structure Term where
  negative : Bool
  first : Float
  factors : List Factor

def Factor.link : Factor → Operator × Float
  | times n => (.times, n)
  | dividedBy n => (.dividedBy, n)

def Factor.apply (m : Float) : Factor → Float
  | times n => m * n
  | dividedBy n => m / n

def Term.links (t : Term) : List (Operator × Float) :=
  (if t.negative then .minus else .plus, t.first) :: t.factors.map Factor.link

/-- The product and quotient of the operands from left to right. A minus sign negates the first. -/
def Term.value (t : Term) : Float :=
  t.factors.foldl Factor.apply (if t.negative then -t.first else t.first)

def sumOfTerms (ts : List Term) : Float := (ts.map Term.value).foldl (· + ·) 0.0

def DividesByZero (ns : List (Operator × Float)) : Prop :=
  ∃ n, (.dividedBy, n) ∈ ns ∧ (n == 0.0) = true

/-- A part of a chain as what remains of a term that has begun before, and the terms after it. -/
def split : List (Operator × Float) → List Factor × List Term
  | [] => ([], [])
  | (op, n) :: rest =>
    let (factors, ts) := split rest
    match op with
    | .plus => ([], ⟨false, n, factors⟩ :: ts)
    | .minus => ([], ⟨true, n, factors⟩ :: ts)
    | .times => (.times n :: factors, ts)
    | .dividedBy => (.dividedBy n :: factors, ts)

def joined (factors : List Factor) (ts : List Term) : List (Operator × Float) :=
  factors.map Factor.link ++ ts.flatMap Term.links

theorem joined_split (ns : List (Operator × Float)) : joined (split ns).1 (split ns).2 = ns := by
  induction ns with
  | nil => rfl
  | cons p rest ih =>
    obtain ⟨op, n⟩ := p
    cases op with
    | plus => exact congrArg ((.plus, n) :: ·) ih
    | minus => exact congrArg ((.minus, n) :: ·) ih
    | times => exact congrArg ((.times, n) :: ·) ih
    | dividedBy => exact congrArg ((.dividedBy, n) :: ·) ih

theorem split_factors (factors : List Factor) (ns : List (Operator × Float)) :
    split (factors.map Factor.link ++ ns) = (factors ++ (split ns).1, (split ns).2) := by
  induction factors with
  | nil => rfl
  | cons f factors ih =>
    rw [List.map_cons, List.cons_append]
    cases f with
    | times n => simp only [Factor.link, split, ih, List.cons_append]
    | dividedBy n => simp only [Factor.link, split, ih, List.cons_append]

theorem split_term (t : Term) {ns : List (Operator × Float)} {ts : List Term}
    (h : split (t.factors.map Factor.link ++ ns) = (t.factors, ts)) :
    split (t.links ++ ns) = ([], t :: ts) := by
  obtain ⟨negative, n, factors⟩ := t
  cases negative with
  | false => simp [Term.links, split, h]
  | true => simp [Term.links, split, h]

theorem split_joined (factors : List Factor) (ts : List Term) :
    split (joined factors ts) = (factors, ts) := by
  induction ts generalizing factors with
  | nil => rw [joined, split_factors, List.flatMap_nil, split, List.append_nil]
  | cons t ts ih =>
    have first : split ((t :: ts).flatMap Term.links) = ([], t :: ts) := split_term t (ih t.factors)
    rw [joined, split_factors, first, List.append_nil]

variable {total term : Float} {ns : List (Operator × Float)}

/-- Where nothing is divided by zero, a run adds to its total what remains of the term and then the
terms that follow. -/
theorem runChain_split (h : ¬ DividesByZero ns) :
    runChain total term ns = finite (((split ns).2.map Term.value).foldl (· + ·)
      (total + (split ns).1.foldl Factor.apply term)) := by
  induction ns generalizing total term with
  | nil => rfl
  | cons p rest ih =>
    have later : ¬ DividesByZero rest := fun ⟨n, mem, zero⟩ =>
      h ⟨n, List.mem_cons_of_mem p mem, zero⟩
    obtain ⟨op, n⟩ := p
    cases op with
    | plus => exact ih later
    | minus => exact ih later
    | times => exact ih later
    | dividedBy =>
      have divides : ¬ (n == 0.0) = true := fun zero => h ⟨n, List.mem_cons_self, zero⟩
      rw [runChain, if_neg divides]
      exact ih later

theorem runChain_of_dividesByZero (h : DividesByZero ns) :
    runChain total term ns = .error .divideByZero := by
  induction ns generalizing total term with
  | nil =>
    obtain ⟨n, mem, -⟩ := h
    exact absurd mem List.not_mem_nil
  | cons p rest ih =>
    obtain ⟨op, n⟩ := p
    obtain ⟨m, mem, zero⟩ := h
    rcases List.mem_cons.mp mem with here | later
    · obtain ⟨rfl, rfl⟩ := Prod.mk.inj here
      rw [runChain, if_pos zero]
    · have rest : DividesByZero rest := ⟨m, later, zero⟩
      cases op with
      | plus => exact ih rest
      | minus => exact ih rest
      | times => exact ih rest
      | dividedBy =>
        rw [runChain]
        split
        · rfl
        · exact ih rest

section Chains

variable {cells : Address → Option Value} {first second : Formula} {op : Operator}
  {rest : List (Operator × Formula)}

theorem Gives.factors_eq_nil (h : Gives cells (operandsOf first op second rest) ns) :
    (split ns).1 = [] := by
  cases h with
  | @cons _ q _ _ head others =>
    obtain ⟨op, n⟩ := q
    obtain rfl : op = .plus := head.1
    rfl

theorem outcome_of_gives (h : Gives cells (operandsOf first op second rest) ns) :
    outcome cells (.chain first op second rest) = do
      return .number (← runChain 0.0 0.0 ns) := by
  rw [outcome_chain, mapM_supply h]
  rfl

/-- A chain whose operands all evaluate to numbers splits into terms in one way. If one of the
numbers that something is divided by is zero, the chain is a division by zero; otherwise it is the
sum of its terms from left to right, or an invalid operand if that is not finite. -/
theorem chain_is_sum_of_terms (h : Gives cells (operandsOf first op second rest) ns) :
    (∀ ts : List Term, ts.flatMap Term.links = ns ↔ ts = (split ns).2) ∧
      (DividesByZero ns → (chain first op second rest).evaluate cells = .fault .divideByZero) ∧
      (¬ DividesByZero ns → (chain first op second rest).evaluate cells =
        if (sumOfTerms (split ns).2).isFinite then .number (sumOfTerms (split ns).2)
        else .fault .invalidOperand) := by
  have whole : (split ns).1 = [] := h.factors_eq_nil
  refine ⟨fun ts => ⟨?_, ?_⟩, fun zero => ?_, fun nonzero => ?_⟩
  · rintro rfl
    exact (congrArg Prod.snd (split_joined [] ts)).symm
  · rintro rfl
    rw [← joined_split ns, whole, split_joined]
    rfl
  · rw [evaluate, outcome_of_gives h, runChain_of_dividesByZero zero]
    rfl
  · have run : runChain 0.0 0.0 ns = finite (sumOfTerms (split ns).2) := by
      rw [runChain_split nonzero, whole]
      rfl
    rw [evaluate, outcome_of_gives h, run, finite]
    generalize sumOfTerms (split ns).2 = total
    cases total.isFinite <;> rfl

/-- The minus sign of a chain goes to the first operand of the term that it introduces. -/
theorem chain_is_sum_of_terms_difference :
    let a : Address := ⟨0, 0⟩
    let cells : Address → Option Value := fun b => if b = a then some (.number 4) else none
    let rest : List (Operator × Formula) :=
      [(.dividedBy, .literal (.number 2)), (.times, .literal (.number 3))]
    let ns : List (Operator × Float) := [(.plus, 10), (.minus, 4), (.dividedBy, 2), (.times, 3)]
    Gives cells (operandsOf (.literal (.number 10)) .minus (.reference a) rest) ns ∧
      [⟨false, 10, []⟩, ⟨true, 4, [.dividedBy 2, .times 3]⟩].flatMap Term.links = ns ∧
      (chain (.literal (.number 10)) .minus (.reference a) rest).evaluate cells = .number 4 := by
  intro a cells rest ns
  have gives : Gives cells (operandsOf (.literal (.number 10)) .minus (.reference a) rest) ns :=
    .cons ⟨rfl, rfl⟩ (.cons ⟨rfl, rfl⟩ (.cons ⟨rfl, rfl⟩ (.cons ⟨rfl, rfl⟩ .nil)))
  have nonzero : ¬ DividesByZero ns := by
    rintro ⟨n, mem, zero⟩
    have two : n = 2 := by simpa [ns] using mem
    exact absurd (two ▸ zero) (by decide)
  have sum : sumOfTerms (split ns).2 = 4 := rfl
  obtain ⟨-, -, value⟩ := chain_is_sum_of_terms gives
  rw [sum] at value
  exact ⟨gives, rfl, value nonzero⟩

end Chains

end ReactiveSheet.Formula
