import ReactiveSheet.Proofs.Formula.Evaluation

/-!
What a formula makes of failing parts.

A part fails in one of two ways. It can hold a fault, as a constant does or a reference to a cell
with one: whoever needs a number of it, or compares it, finds an invalid operand, whatever the
fault. Or it can end in a fault of its own, which then ends all that is evaluated around it. The
value of the part is the same either way, and so is what is made of it, unless the fault is a
division by zero: a part that breaks passes it on, and one that holds it does not.

So a chain or a comparison with a failing part gives an invalid operand or a division by zero: the
latter exactly if the part that ends its evaluation breaks. Putting a part into a cell of its own
makes a fault that ended the part one that is held. This changes no result if nothing that feeds the
formula breaks, and otherwise it can only exchange the two faults.
-/

namespace ReactiveSheet.Formula

variable {cells : Address → Option Value}

/-- The evaluation ends in a fault of its own, rather than with one that is held. -/
def Ends (cells : Address → Option Value) (f : Formula) : Prop :=
  ∃ cause, outcome cells f = .error cause

def Breaks (cells : Address → Option Value) (f : Formula) : Prop :=
  outcome cells f = .error .divideByZero

def NoNumber (cells : Address → Option Value) (f : Formula) : Prop :=
  (f.evaluate cells).isNumber = false

/-- The formula fails: by a division by zero if it is broken, and else as an operand is invalid. -/
def FailsAs (cells : Address → Option Value) (broken : Prop) (f : Formula) : Prop :=
  (broken → f.evaluate cells = .fault .divideByZero) ∧
    (¬ broken → f.evaluate cells = .fault .invalidOperand)

/-- The first operand of which no number comes. -/
def firstFailing (cells : Address → Option Value) (operands : List (Operator × Formula)) :
    Option (Operator × Formula) :=
  operands.find? fun p => !(p.2.evaluate cells).isNumber

theorem cause_of_ended {f : Formula} {cause : Fault} (h : outcome cells f = .error cause) :
    cause = .invalidOperand ∨ cause = .divideByZero := by
  have anything : Closed fun _ => True :=
    ⟨fun _ _ => trivial, fun _ _ => trivial, fun _ _ => trivial⟩
  have made : Ensures (fun _ => True) (outcome cells f) :=
    ensures_outcome anything (fun _ _ => trivial) fun _ _ _ _ => trivial
  rw [h] at made
  cases cause with
  | cycle => exact absurd rfl made
  | invalidOperand => exact Or.inl rfl
  | divideByZero => exact Or.inr rfl

theorem evaluate_of_ended {f : Formula} {cause : Fault} (h : outcome cells f = .error cause) :
    f.evaluate cells = .fault cause := by
  rw [evaluate, h]

theorem breaks_iff_of_ended {f : Formula} {cause : Fault} (h : outcome cells f = .error cause) :
    Breaks cells f ↔ cause = .divideByZero := by
  rw [Breaks, h, Except.error.injEq]

theorem Breaks.ends {f : Formula} (h : Breaks cells f) : Ends cells f := ⟨_, h⟩

theorem not_ends_of_ok {f : Formula} {v : Value} (h : outcome cells f = .ok v) :
    ¬ Ends cells f := by
  rintro ⟨cause, ends⟩
  cases h.symm.trans ends

theorem failsAs_of_ended {f : Formula} {cause : Fault} {broken : Prop}
    (h : outcome cells f = .error cause) (hb : broken ↔ cause = .divideByZero) :
    FailsAs cells broken f := by
  rw [FailsAs, evaluate_of_ended h, hb]
  refine ⟨fun zero => by rw [zero], fun nonzero => ?_⟩
  rw [(cause_of_ended h).resolve_right nonzero]

theorem supply_of_noNumber {p : Operator × Formula} (h : NoNumber cells p.2) :
    ∃ cause, supply cells p = .error cause ∧ (Breaks cells p.2 ↔ cause = .divideByZero) := by
  rw [NoNumber, evaluate] at h
  rw [supply]
  cases hv : outcome cells p.2 with
  | error cause => exact ⟨cause, rfl, breaks_iff_of_ended hv⟩
  | ok v =>
    rw [hv] at h
    have held : ¬ Breaks cells p.2 := fun breaks => not_ends_of_ok hv breaks.ends
    refine ⟨.invalidOperand, ?_, fun breaks => absurd breaks held, Fault.noConfusion⟩
    cases v with
    | number n => cases h
    | text s => rfl
    | fault cause => rfl

theorem supply_of_isNumber {p : Operator × Formula} (h : (p.2.evaluate cells).isNumber) :
    ∃ q, supply cells p = .ok q := by
  cases hv : p.2.evaluate cells with
  | number n => exact ⟨(p.1, n), supply_of_number hv⟩
  | text s => exact nomatch hv ▸ h
  | fault cause => exact nomatch hv ▸ h

theorem mapM_of_firstFailing {operands : List (Operator × Formula)} {p : Operator × Formula}
    {cause : Fault} (first : firstFailing cells operands = some p)
    (fails : supply cells p = .error cause) : operands.mapM (supply cells) = .error cause := by
  induction operands with
  | nil => exact nomatch first
  | cons q operands ih =>
    rw [List.mapM_cons]
    rw [firstFailing, List.find?_cons] at first
    cases number : (q.2.evaluate cells).isNumber with
    | false =>
      rw [number] at first
      obtain rfl : q = p := Option.some.inj first
      rw [fails]
      rfl
    | true =>
      rw [number] at first
      obtain ⟨r, given⟩ := supply_of_isNumber number
      rw [given, ih first]
      rfl

theorem exists_firstFailing {operands : List (Operator × Formula)}
    (h : ∃ p ∈ operands, NoNumber cells p.2) :
    ∃ p, firstFailing cells operands = some p ∧ NoNumber cells p.2 := by
  obtain ⟨q, mem, fails⟩ := h
  have found : (firstFailing cells operands).isSome :=
    List.find?_isSome.mpr ⟨q, mem, by rw [fails]; rfl⟩
  obtain ⟨p, first⟩ := Option.isSome_iff_exists.mp found
  have failing := List.find?_some first
  exact ⟨p, first, by simpa [NoNumber] using failing⟩

theorem chain_fails {first second : Formula} {op : Operator} {rest : List (Operator × Formula)}
    (h : ∃ p ∈ operandsOf first op second rest, NoNumber cells p.2) :
    FailsAs cells
      (∃ p, firstFailing cells (operandsOf first op second rest) = some p ∧ Breaks cells p.2)
      (.chain first op second rest) := by
  obtain ⟨p, found, fails⟩ := exists_firstFailing h
  obtain ⟨cause, supplied, breaks⟩ := supply_of_noNumber fails
  have whole : outcome cells (.chain first op second rest) = .error cause := by
    rw [outcome_chain, mapM_of_firstFailing found supplied]
    rfl
  apply failsAs_of_ended whole
  rw [← breaks, found]
  constructor
  · rintro ⟨q, same, broken⟩
    rwa [Option.some.inj same]
  · exact fun broken => ⟨p, rfl, broken⟩

theorem compareValues_of_fault {cmp : Comparator} {v w : Value} {cause : Fault}
    (h : v = .fault cause ∨ w = .fault cause) : compareValues cmp v w = .error .invalidOperand := by
  rcases h with rfl | rfl
  · rfl
  · cases v <;> rfl

theorem choice_fails {left right yes no : Formula} {cmp : Comparator}
    (h : ∃ side ∈ [left, right], ∃ cause, side.evaluate cells = .fault cause) :
    FailsAs cells (Breaks cells left ∨ ¬ Ends cells left ∧ Breaks cells right)
      (.choice left cmp right yes no) := by
  cases hl : outcome cells left with
  | error cause =>
    have whole : outcome cells (.choice left cmp right yes no) = .error cause := by
      rw [outcome, hl]
      rfl
    have ends : Ends cells left := ⟨cause, hl⟩
    apply failsAs_of_ended whole
    rw [breaks_iff_of_ended hl]
    exact ⟨fun h => h.resolve_right fun right => right.1 ends, Or.inl⟩
  | ok v =>
    have passes : ¬ Ends cells left := not_ends_of_ok hl
    have sound : ¬ Breaks cells left := fun breaks => passes breaks.ends
    cases hr : outcome cells right with
    | error cause =>
      have whole : outcome cells (.choice left cmp right yes no) = .error cause := by
        rw [outcome, hl, hr]
        rfl
      apply failsAs_of_ended whole
      rw [breaks_iff_of_ended hr]
      exact ⟨fun h => (h.resolve_left sound).2, fun zero => Or.inr ⟨passes, zero⟩⟩
    | ok w =>
      have unbroken : ¬ Breaks cells right := fun breaks => not_ends_of_ok hr breaks.ends
      have held : ∃ cause, v = .fault cause ∨ w = .fault cause := by
        obtain ⟨side, mem, cause, held⟩ := h
        rcases List.mem_pair.mp mem with rfl | rfl
        · exact ⟨cause, Or.inl (by rwa [evaluate, hl] at held)⟩
        · exact ⟨cause, Or.inr (by rwa [evaluate, hr] at held)⟩
      obtain ⟨cause, held⟩ := held
      have whole : outcome cells (.choice left cmp right yes no) = .error .invalidOperand := by
        rw [outcome, hl, hr]
        simp only [bind, Except.bind, compareValues_of_fault held]
      apply failsAs_of_ended whole
      exact ⟨fun h => absurd (h.resolve_left sound).2 unbroken, Fault.noConfusion⟩

def inputs : Formula → List Formula
  | .chain first op second rest => (operandsOf first op second rest).map Prod.snd
  | .choice left _ right _ _ => [left, right]
  | _ => []

/-- The part `h` is an input somewhere in the formula. -/
inductive Feeds (h : Formula) : Formula → Prop where
  | here {f : Formula} (mem : h ∈ f.inputs) : Feeds h f
  | input {f g : Formula} (mem : g ∈ f.inputs) (feeds : Feeds h g) : Feeds h f
  | yes {left right yes no : Formula} {cmp : Comparator} (feeds : Feeds h yes) :
      Feeds h (.choice left cmp right yes no)
  | no {left right yes no : Formula} {cmp : Comparator} (feeds : Feeds h no) :
      Feeds h (.choice left cmp right yes no)

def FedByBroken (cells : Address → Option Value) (f : Formula) : Prop :=
  ∃ h, Feeds h f ∧ Breaks cells h

theorem FedByBroken.here {f h : Formula} (mem : h ∈ f.inputs) (breaks : Breaks cells h) :
    FedByBroken cells f := ⟨h, .here mem, breaks⟩

theorem FedByBroken.input {f g : Formula} (mem : g ∈ f.inputs) (fed : FedByBroken cells g) :
    FedByBroken cells f :=
  fed.imp fun _ broken => broken.imp_left (.input mem)

/-- The second formula is the first one with a part of it put into a cell of its own: where the part
was, the cell is referred to, and it holds the value of the part. -/
inductive Moves (cells : Address → Option Value) : Formula → Formula → Prop where
  | here {f : Formula} {a : Address} (held : cells a = some (f.evaluate cells)) :
      Moves cells f (.reference a)
  | operand {first second first' second' f g : Formula} {op op' joint : Operator}
      {rest rest' before after : List (Operator × Formula)}
      (old : operandsOf first op second rest = before ++ (joint, f) :: after)
      (new : operandsOf first' op' second' rest' = before ++ (joint, g) :: after)
      (moves : Moves cells f g) :
      Moves cells (.chain first op second rest) (.chain first' op' second' rest')
  | left {left left' right yes no : Formula} {cmp : Comparator} (moves : Moves cells left left') :
      Moves cells (.choice left cmp right yes no) (.choice left' cmp right yes no)
  | right {left right right' yes no : Formula} {cmp : Comparator}
      (moves : Moves cells right right') :
      Moves cells (.choice left cmp right yes no) (.choice left cmp right' yes no)
  | yes {left right yes yes' no : Formula} {cmp : Comparator} (moves : Moves cells yes yes') :
      Moves cells (.choice left cmp right yes no) (.choice left cmp right yes' no)
  | no {left right yes no no' : Formula} {cmp : Comparator} (moves : Moves cells no no') :
      Moves cells (.choice left cmp right yes no) (.choice left cmp right yes no')

/-- One of the formulas breaks, and the other one gives an invalid operand. -/
def Exchanged (cells : Address → Option Value) (f g : Formula) : Prop :=
  Breaks cells f ∧ g.evaluate cells = .fault .invalidOperand ∨
    f.evaluate cells = .fault .invalidOperand ∧ Breaks cells g

section Outcomes

variable {α β : Type} {broken broken' : Prop}

def Agree (broken : Prop) (x y : Outcome α) : Prop :=
  y = x ∨ broken ∧ (x = .error .divideByZero ∧ y = .error .invalidOperand ∨
    x = .error .invalidOperand ∧ y = .error .divideByZero)

/-- The same, but a fault of the first outcome's own may be held by the second. -/
def Softened (broken : Prop) (x y : Outcome Value) : Prop :=
  Agree broken x y ∨ ∃ cause, x = .error cause ∧ y = .ok (.fault cause)

theorem Agree.refl (x : Outcome α) : Agree broken x x := Or.inl rfl

theorem Agree.mono {x y : Outcome α} (h : Agree broken x y) (le : broken → broken') :
    Agree broken' x y := h.imp_right fun exchanged => exchanged.imp_left le

theorem Softened.mono {x y : Outcome Value} (h : Softened broken x y) (le : broken → broken') :
    Softened broken' x y := h.imp_left fun agree => agree.mono le

theorem Agree.bind {x y : Outcome α} (h : Agree broken x y) (k : α → Outcome β) :
    Agree broken (x >>= k) (y >>= k) := by
  rcases h with rfl | ⟨b, ⟨rfl, rfl⟩ | ⟨rfl, rfl⟩⟩
  · exact .refl _
  · exact Or.inr ⟨b, Or.inl ⟨rfl, rfl⟩⟩
  · exact Or.inr ⟨b, Or.inr ⟨rfl, rfl⟩⟩

theorem Agree.under {k k' : α → Outcome β} (x : Outcome α) (h : ∀ a, Agree broken (k a) (k' a)) :
    Agree broken (x >>= k) (x >>= k') := by
  cases x with
  | error cause => exact .refl _
  | ok a => exact h a

theorem Softened.under {k k' : α → Outcome Value} (x : Outcome α)
    (h : ∀ a, Softened broken (k a) (k' a)) : Softened broken (x >>= k) (x >>= k') := by
  cases x with
  | error cause => exact Or.inl (.refl _)
  | ok a => exact h a

theorem Softened.read {x y : Outcome Value} {need : Value → Outcome β} (h : Softened broken x y)
    (met : ∀ cause, x = .error cause → Agree broken (.error cause) (need (.fault cause))) :
    Agree broken (x >>= need) (y >>= need) := by
  rcases h with agree | ⟨cause, rfl, rfl⟩
  · exact agree.bind need
  · exact met cause rfl

theorem agree_of_ended {c d : Fault} (hc : c = .invalidOperand ∨ c = .divideByZero)
    (hd : d = .invalidOperand ∨ d = .divideByZero)
    (b : c = .divideByZero ∨ d = .divideByZero → broken) :
    Agree broken (.error c : Outcome α) (.error d) := by
  rcases hc with rfl | rfl <;> rcases hd with rfl | rfl
  · exact .refl _
  · exact Or.inr ⟨b (Or.inr rfl), Or.inr ⟨rfl, rfl⟩⟩
  · exact Or.inr ⟨b (Or.inl rfl), Or.inl ⟨rfl, rfl⟩⟩
  · exact .refl _

end Outcomes

theorem agree_of_input {α : Type} {f h : Formula} {cause : Fault} (mem : h ∈ f.inputs)
    (ends : outcome cells h = .error cause) :
    Agree (FedByBroken cells f) (.error cause : Outcome α) (.error .invalidOperand) := by
  apply agree_of_ended (cause_of_ended ends) (Or.inl rfl)
  rintro (rfl | zero)
  · exact .here mem ends
  · cases zero

theorem outcome_operand {first second f : Formula} {op joint : Operator}
    {rest before after : List (Operator × Formula)}
    (h : operandsOf first op second rest = before ++ (joint, f) :: after) :
    outcome cells (.chain first op second rest) = do
      let us ← before.mapM (supply cells)
      let n ← outcome cells f >>= numberOf
      let vs ← after.mapM (supply cells)
      return .number (← runChain 0.0 0.0 (us ++ (joint, n) :: vs)) := by
  rw [outcome_chain, h, List.mapM_append, List.mapM_cons]
  simp only [supply, bind_assoc, pure_bind]

/-- Wherever the part stands, an input above it evens out whether its fault is held. -/
theorem softened_of_moves {f g : Formula} (h : Moves cells f g) :
    Softened (FedByBroken cells f) (outcome cells f) (outcome cells g) := by
  induction h with
  | @here f a held =>
    have reads : outcome cells (.reference a) = .ok (f.evaluate cells) := by
      rw [outcome, cellValue, held]
    rw [reads, evaluate]
    cases outcome cells f with
    | ok v => exact Or.inl (.refl _)
    | error cause => exact Or.inr ⟨cause, rfl, rfl⟩
  | @operand first second _ _ f g op _ joint rest _ before after old new moves ih =>
    have input : f ∈ (chain first op second rest).inputs := by
      rw [inputs, old]
      exact List.mem_map_of_mem (List.mem_append_right before List.mem_cons_self)
    rw [outcome_operand old, outcome_operand new]
    apply Or.inl
    apply Agree.under
    intro us
    apply Agree.bind
    apply (ih.mono (.input input)).read
    intro cause ends
    exact agree_of_input input ends
  | @left left left' right yes no cmp moves ih =>
    have side : left ∈ (choice left cmp right yes no).inputs := List.mem_cons_self
    have other : right ∈ (choice left cmp right yes no).inputs :=
      List.mem_cons_of_mem left List.mem_cons_self
    rw [outcome, outcome]
    apply Or.inl
    apply (ih.mono (.input side)).read
    intro cause ends
    -- Once the left side only holds its fault, the right side is evaluated and can end in another.
    cases hr : outcome cells right with
    | error d =>
      apply agree_of_ended (cause_of_ended ends) (cause_of_ended hr)
      rintro (rfl | rfl)
      · exact .here side ends
      · exact .here other hr
    | ok w => exact agree_of_input side ends
  | @right left right right' yes no cmp moves ih =>
    have side : right ∈ (choice left cmp right yes no).inputs :=
      List.mem_cons_of_mem left List.mem_cons_self
    rw [outcome, outcome]
    apply Or.inl
    apply Agree.under
    intro v
    apply (ih.mono (.input side)).read
    intro cause ends
    rw [compareValues_of_fault (Or.inr rfl)]
    exact agree_of_input side ends
  | @yes left right yes yes' no cmp moves ih =>
    have lift (fed : FedByBroken cells yes) : FedByBroken cells (.choice left cmp right yes no) :=
      fed.imp fun _ broken => broken.imp_left .yes
    rw [outcome, outcome]
    apply Softened.under
    intro v
    apply Softened.under
    intro w
    apply Softened.under
    intro chosen
    cases chosen with
    | true => exact ih.mono lift
    | false => exact Or.inl (.refl _)
  | @no left right yes no no' cmp moves ih =>
    have lift (fed : FedByBroken cells no) : FedByBroken cells (.choice left cmp right yes no) :=
      fed.imp fun _ broken => broken.imp_left .no
    rw [outcome, outcome]
    apply Softened.under
    intro v
    apply Softened.under
    intro w
    apply Softened.under
    intro chosen
    cases chosen with
    | true => exact Or.inl (.refl _)
    | false => exact ih.mono lift

theorem evaluate_of_moves {f g : Formula} (h : Moves cells f g) :
    g.evaluate cells = f.evaluate cells ∨ FedByBroken cells f ∧ Exchanged cells f g := by
  rcases softened_of_moves h with (same | ⟨fed, ⟨hf, hg⟩ | ⟨hf, hg⟩⟩) | ⟨cause, hf, hg⟩
  · exact Or.inl (by rw [evaluate, evaluate, same])
  · exact Or.inr ⟨fed, Or.inl ⟨hf, evaluate_of_ended hg⟩⟩
  · exact Or.inr ⟨fed, Or.inr ⟨evaluate_of_ended hf, hg⟩⟩
  · exact Or.inl (by rw [evaluate, evaluate, hf, hg])

/-- A chain with an operand that gives no number is an invalid operand, or a division by zero if the
first such operand breaks. It is the same for a comparison with a side that gives a fault, except
that a right side which breaks is not reached if the left side ends the evaluation. Putting a part
into a cell of its own can exchange these two results and no more, and it changes nothing if nothing
that feeds the formula breaks. -/
theorem failing_parts (cells : Address → Option Value) :
    (∀ (first : Formula) (op : Operator) (second : Formula) (rest : List (Operator × Formula)),
      (∃ p ∈ operandsOf first op second rest, NoNumber cells p.2) →
        FailsAs cells
          (∃ p, firstFailing cells (operandsOf first op second rest) = some p ∧ Breaks cells p.2)
          (.chain first op second rest)) ∧
      (∀ (left : Formula) (cmp : Comparator) (right yes no : Formula),
        (∃ side ∈ [left, right], ∃ cause, side.evaluate cells = .fault cause) →
          FailsAs cells (Breaks cells left ∨ ¬ Ends cells left ∧ Breaks cells right)
            (.choice left cmp right yes no)) ∧
      ∀ f g : Formula, Moves cells f g →
        g.evaluate cells = f.evaluate cells ∨ FedByBroken cells f ∧ Exchanged cells f g :=
  ⟨fun _ _ _ _ => chain_fails, fun _ _ _ _ _ => choice_fails, fun _ _ => evaluate_of_moves⟩

/-- One divided by zero, as a part of a sum and as a side of a comparison: the division by zero is
passed on. From a cell of its own, the same part is an invalid operand. -/
theorem nested_division :
    let part : Formula := .chain (.literal (.number 1)) .dividedBy (.literal (.number 0)) []
    let a : Address := ⟨0, 0⟩
    let cells : Address → Option Value := fun b =>
      if b = a then some (.fault .divideByZero) else none
    let sum : Formula → Formula := fun f => .chain f .plus (.literal (.number 1)) []
    let choice : Formula → Formula := fun f =>
      .choice f .equal (.literal (.number 1)) (.literal (.number 2)) (.literal (.number 3))
    part.evaluate cells = .fault .divideByZero ∧
      cells a = some (part.evaluate cells) ∧
      (sum part).evaluate cells = .fault .divideByZero ∧
      (sum (.reference a)).evaluate cells = .fault .invalidOperand ∧
      (choice part).evaluate cells = .fault .divideByZero ∧
      (choice (.reference a)).evaluate cells = .fault .invalidOperand :=
  ⟨rfl, rfl, rfl, rfl, rfl, rfl⟩

end ReactiveSheet.Formula
