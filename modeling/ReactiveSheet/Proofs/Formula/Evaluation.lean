import Mathlib.Data.List.Forall2
import Mathlib.Tactic.Basic
import ReactiveSheet.Formula.Evaluation

/-!
What the value of a formula can be.

Whatever a formula gives is a finite number, a join of what is displayed, a fault of its own making,
one of its constants or the value of a cell it reads, so that what all of these have in common holds
of it: `evaluate_of`. A chain evaluates its operands from left to right. If all of them give
numbers, these are run through with their operators; otherwise the first one that gives none ends
the evaluation.
-/

namespace ReactiveSheet.Formula

/-- Induction on formulas, with the operands of a chain taken together. -/
@[elab_as_elim, induction_eliminator]
theorem induction {motive : Formula → Prop}
    (literal : ∀ v, motive (.literal v))
    (reference : ∀ a, motive (.reference a))
    (reduction : ∀ op cells, motive (.reduction op cells))
    (chain : ∀ first op second rest, motive first → motive second →
      (∀ p ∈ rest, motive p.2) → motive (.chain first op second rest))
    (choice : ∀ left cmp right yes no, motive left → motive right → motive yes → motive no →
      motive (.choice left cmp right yes no)) : ∀ f, motive f
  | .literal v => literal v
  | .reference a => reference a
  | .reduction op cells => reduction op cells
  | .chain first op second rest =>
    chain first op second rest
      (induction literal reference reduction chain choice first)
      (induction literal reference reduction chain choice second)
      fun p _mem => induction literal reference reduction chain choice p.2
  | .choice left cmp right yes no =>
    choice left cmp right yes no
      (induction literal reference reduction chain choice left)
      (induction literal reference reduction chain choice right)
      (induction literal reference reduction chain choice yes)
      (induction literal reference reduction chain choice no)
termination_by f => sizeOf f
decreasing_by
  all_goals simp_wf
  any_goals omega
  have := List.sizeOf_lt_of_mem _mem
  cases p
  simp_all only [Prod.mk.sizeOf_spec]
  omega

def literals : Formula → List Value
  | .literal v => [v]
  | .reference _ => []
  | .reduction _ _ => []
  | .chain first _ second rest => literals first ++ literals second ++ literalsRest rest
  | .choice left _ right yes no =>
    literals left ++ literals right ++ literals yes ++ literals no
where
  literalsRest : List (Operator × Formula) → List Value
    | [] => []
    | (_, operand) :: rest => literals operand ++ literalsRest rest

theorem mem_mentionsRest {a : Address} {rest : List (Operator × Formula)} :
    a ∈ mentions.mentionsRest rest ↔ ∃ p ∈ rest, a ∈ p.2.mentions := by
  induction rest with
  | nil => simp [mentions.mentionsRest]
  | cons p rest ih => simp [mentions.mentionsRest, ih]

theorem mem_literalsRest {v : Value} {rest : List (Operator × Formula)} :
    v ∈ literals.literalsRest rest ↔ ∃ p ∈ rest, v ∈ p.2.literals := by
  induction rest with
  | nil => simp [literals.literalsRest]
  | cons p rest ih => simp [literals.literalsRest, ih]

theorem mem_references {a : Address} {f : Formula} : a ∈ f.references ↔ a ∈ f.mentions :=
  Address.mem_setOf

variable {cells : Address → Option Value}

/-- An outcome that, if there is one, has a property; no failure is blamed on a cycle. -/
def Ensures {α : Type} (P : α → Prop) : Outcome α → Prop
  | .ok a => P a
  | .error cause => cause ≠ .cycle

section Ensures

variable {α β : Type} {P : α → Prop} {Q : β → Prop}

theorem Ensures.bind {x : Outcome α} {g : α → Outcome β} (h : Ensures P x)
    (k : ∀ a, P a → Ensures Q (g a)) : Ensures Q (x >>= g) := by
  cases x with
  | ok a => exact k a h
  | error cause => exact h

theorem ensures_mapM {l : List α} {g : α → Outcome β} (h : ∀ a ∈ l, Ensures Q (g a)) :
    Ensures (fun bs => ∀ b ∈ bs, Q b) (l.mapM g) := by
  induction l with
  | nil => exact fun b hb => nomatch hb
  | cons a l ih =>
    obtain ⟨first, others⟩ := List.forall_mem_cons.mp h
    rw [List.mapM_cons]
    exact first.bind fun b hb => (ih others).bind fun bs hbs => List.forall_mem_cons.mpr ⟨hb, hbs⟩

end Ensures

theorem ensures_cellValue {P : Value → Prop} {a : Address}
    (h : ∀ v, cells a = some v → P v) : Ensures P (cellValue cells a) := by
  unfold cellValue
  cases hv : cells a with
  | none => exact Fault.noConfusion
  | some v => exact h v hv

theorem ensures_numberOf (v : Value) : Ensures (fun _ => True) (numberOf v) := by
  cases v with
  | number n => exact trivial
  | text s => exact Fault.noConfusion
  | fault cause => exact Fault.noConfusion

def Displays (P : Value → Prop) (text : String) : Prop := ∃ v, P v ∧ v.display = text

theorem ensures_textOf {P : Value → Prop} {v : Value} (h : P v) :
    Ensures (Displays P) (textOf v) := by
  cases v with
  | number n => exact ⟨_, h, rfl⟩
  | text s => exact ⟨_, h, rfl⟩
  | fault cause => exact Fault.noConfusion

theorem ensures_finite (n : Float) : Ensures (fun m => m.isFinite) (finite n) := by
  unfold finite
  split
  · assumption
  · exact Fault.noConfusion

theorem ensures_reduceNumbers (op : Reduction) (ns : List Float) :
    Ensures (fun n => n.isFinite) (reduceNumbers op ns) := by
  cases op with
  | sum => exact ensures_finite _
  | product => exact ensures_finite _
  | difference => exact ensures_finite _
  | average =>
    simp only [reduceNumbers]
    split
    · exact Fault.noConfusion
    · exact ensures_finite _
  | join => exact Fault.noConfusion

theorem ensures_runChain (total term : Float) (rest : List (Operator × Float)) :
    Ensures (fun n => n.isFinite) (runChain total term rest) := by
  fun_induction runChain total term rest with
  | case1 => exact ensures_finite _
  | case2 => assumption
  | case3 => assumption
  | case4 => assumption
  | case5 => exact Fault.noConfusion
  | case6 => assumption

theorem ensures_compareValues (cmp : Comparator) (v w : Value) :
    Ensures (fun _ => True) (compareValues cmp v w) := by
  unfold compareValues
  split
  · exact Fault.noConfusion
  · exact Fault.noConfusion
  · exact trivial
  · split
    · exact trivial
    · exact Fault.noConfusion

/-- A property of values that results of formulas have by being made by them. -/
structure MadeOf (P : Value → Prop) : Prop where
  text : ∀ s, P (.text s)
  number : ∀ n : Float, n.isFinite → P (.number n)
  fault : ∀ cause, cause ≠ .cycle → P (.fault cause)

/-- The same for a property that some texts may not have: joins have it if what they are made of is
displayed by values that have it. -/
structure Closed (P : Value → Prop) : Prop where
  number : ∀ n : Float, n.isFinite → P (.number n)
  fault : ∀ cause, cause ≠ .cycle → P (.fault cause)
  join : ∀ parts, (∀ part ∈ parts, Displays P part) → P (.text (String.join parts))

variable {P : Value → Prop}

theorem MadeOf.closed (made : MadeOf P) : Closed P :=
  ⟨made.number, made.fault, fun _ _ => made.text _⟩

theorem ensures_reduce (closed : Closed P) (op : Reduction) {addrs : List Address}
    (read : ∀ a ∈ addrs, ∀ v, cells a = some v → P v) : Ensures P (reduce cells op addrs) := by
  have values (a : Address) (ha : a ∈ addrs) : Ensures P (cellValue cells a) :=
    ensures_cellValue (read a ha)
  have numbers := ensures_mapM fun a ha => (values a ha).bind fun v _ => ensures_numberOf v
  have texts := ensures_mapM fun a ha => (values a ha).bind fun v hv => ensures_textOf hv
  have reduced (ns : List Float) : Ensures P (reduceNumbers op ns >>= fun n => pure (.number n)) :=
    (ensures_reduceNumbers op ns).bind fun n finite => closed.number n finite
  unfold reduce
  cases op with
  | join => exact texts.bind fun parts displayed => closed.join parts displayed
  | sum => exact numbers.bind fun ns _ => reduced ns
  | product => exact numbers.bind fun ns _ => reduced ns
  | difference => exact numbers.bind fun ns _ => reduced ns
  | average => exact numbers.bind fun ns _ => reduced ns

theorem ensures_operands {rest : List (Operator × Formula)}
    (h : ∀ p ∈ rest, Ensures P (outcome cells p.2)) :
    Ensures (fun _ => True) (outcome.operands cells rest) := by
  induction rest with
  | nil => exact trivial
  | cons p rest ih =>
    unfold outcome.operands
    apply (h p List.mem_cons_self).bind
    intro v _
    apply (ensures_numberOf v).bind
    intro n _
    exact (ih fun q hq => h q (List.mem_cons_of_mem _ hq)).bind fun _ _ => trivial

theorem ensures_outcome (closed : Closed P) {f : Formula} (own : ∀ v ∈ f.literals, P v)
    (read : ∀ a ∈ f.mentions, ∀ v, cells a = some v → P v) : Ensures P (outcome cells f) := by
  induction f with
  | literal v => exact own v (by simp [literals])
  | reference a => exact ensures_cellValue (read a (by simp [mentions]))
  | reduction op addrs => exact ensures_reduce closed op (by simpa [mentions] using read)
  | chain first op second rest ih₁ ih₂ ih₃ =>
    simp only [literals, mentions, List.mem_append] at own read
    have head : Ensures P (outcome cells first) :=
      ih₁ (fun v hv => own v (Or.inl (Or.inl hv))) fun a ha => read a (Or.inl (Or.inl ha))
    have next : Ensures P (outcome cells second) :=
      ih₂ (fun v hv => own v (Or.inl (Or.inr hv))) fun a ha => read a (Or.inl (Or.inr ha))
    have others : Ensures (fun _ => True) (outcome.operands cells rest) :=
      ensures_operands fun p hp =>
        ih₃ p hp (fun v hv => own v (Or.inr (mem_literalsRest.mpr ⟨p, hp, hv⟩)))
          fun a ha => read a (Or.inr (mem_mentionsRest.mpr ⟨p, hp, ha⟩))
    unfold outcome
    apply head.bind
    intro v _
    apply (ensures_numberOf v).bind
    intro m _
    apply next.bind
    intro w _
    apply (ensures_numberOf w).bind
    intro n _
    apply others.bind
    intro ns _
    exact (ensures_runChain 0.0 m ((op, n) :: ns)).bind fun k finite => closed.number k finite
  | choice left cmp right yes no ih₁ ih₂ ih₃ ih₄ =>
    simp only [literals, mentions, List.mem_append] at own read
    have hleft : Ensures P (outcome cells left) :=
      ih₁ (fun v hv => own v (Or.inl (Or.inl (Or.inl hv))))
        fun a ha => read a (Or.inl (Or.inl (Or.inl ha)))
    have hright : Ensures P (outcome cells right) :=
      ih₂ (fun v hv => own v (Or.inl (Or.inl (Or.inr hv))))
        fun a ha => read a (Or.inl (Or.inl (Or.inr ha)))
    unfold outcome
    apply hleft.bind
    intro v _
    apply hright.bind
    intro w _
    apply (ensures_compareValues cmp v w).bind
    intro b _
    split
    · exact ih₃ (fun v hv => own v (Or.inl (Or.inr hv))) fun a ha => read a (Or.inl (Or.inr ha))
    · exact ih₄ (fun v hv => own v (Or.inr hv)) fun a ha => read a (Or.inr ha)

/-- What finite numbers, joins and faults other than of cycles have in common, a formula gives if
its constants and the cells that it reads have it. -/
theorem evaluate_of (closed : Closed P) {f : Formula} (own : ∀ v ∈ f.literals, P v)
    (read : ∀ a ∈ f.references, ∀ v, cells a = some v → P v) : P (f.evaluate cells) := by
  have h := ensures_outcome closed own fun a ha => read a (mem_references.mpr ha)
  unfold evaluate
  cases hv : outcome cells f with
  | ok v => simpa [hv, Ensures] using h
  | error cause => exact closed.fault cause (by simpa [hv, Ensures] using h)

def operandsOf (first : Formula) (op : Operator) (second : Formula)
    (rest : List (Operator × Formula)) : List (Operator × Formula) :=
  (.plus, first) :: (op, second) :: rest

def supply (cells : Address → Option Value) (p : Operator × Formula) :
    Outcome (Operator × Float) := do
  let n ← numberOf (← outcome cells p.2)
  return (p.1, n)

def Gives (cells : Address → Option Value) (operands : List (Operator × Formula))
    (ns : List (Operator × Float)) : Prop :=
  List.Forall₂ (fun p q => q.1 = p.1 ∧ p.2.evaluate cells = .number q.2) operands ns

variable {f first second : Formula} {op : Operator} {rest : List (Operator × Formula)} {n : Float}

theorem evaluate_eq_number_iff :
    f.evaluate cells = .number n ↔ outcome cells f = .ok (.number n) := by
  unfold evaluate
  cases outcome cells f with
  | ok v => exact ⟨congrArg Except.ok, Except.ok.inj⟩
  | error cause => exact ⟨fun h => (nomatch h), fun h => (nomatch h)⟩

theorem supply_of_number (h : f.evaluate cells = .number n) :
    supply cells (op, f) = .ok (op, n) := by
  rw [supply, evaluate_eq_number_iff.mp h]
  rfl

theorem operands_eq_mapM (cells : Address → Option Value) (rest : List (Operator × Formula)) :
    outcome.operands cells rest = rest.mapM (supply cells) := by
  induction rest with
  | nil => rfl
  | cons p rest ih =>
    rw [outcome.operands, List.mapM_cons, ih, supply]
    cases outcome cells p.2 with
    | error cause => rfl
    | ok v => cases v <;> rfl

/-- All operands of a chain are treated alike, the first one as one that is added to zero. -/
theorem outcome_chain (cells : Address → Option Value) (first : Formula) (op : Operator)
    (second : Formula) (rest : List (Operator × Formula)) :
    outcome cells (.chain first op second rest) = do
      let ns ← (operandsOf first op second rest).mapM (supply cells)
      return .number (← runChain 0.0 0.0 ns) := by
  rw [outcome, operands_eq_mapM, operandsOf, List.mapM_cons, List.mapM_cons]
  simp only [supply, bind_assoc, pure_bind]
  rfl

theorem mapM_supply {operands : List (Operator × Formula)} {ns : List (Operator × Float)}
    (h : Gives cells operands ns) : operands.mapM (supply cells) = .ok ns := by
  induction h with
  | nil => rfl
  | @cons p q operands ns number others ih =>
    obtain ⟨same, number⟩ := number
    have here : supply cells p = .ok q := (supply_of_number number).trans (by rw [← same])
    rw [List.mapM_cons, here, ih]
    rfl

end ReactiveSheet.Formula
