import ReactiveSheet.Proofs.Formula.Evaluation

/-!
The cells that an evaluation looks at.

An evaluation looks at cells one after another until it is done or a fault ends it, and of two
branches it enters one. `watch` is the evaluation with a list of the cells that it comes to. They
are references of the formula, whichever way the evaluation goes, and nothing else counts: whoever
answers the same for them gets the same value.
-/

namespace ReactiveSheet.Formula

/-- What comes of looking at some cells. -/
structure Looking (α : Type) where
  readings : List Address
  result : Outcome α

namespace Looking

variable {α β : Type}

def still (x : Outcome α) : Looking α := ⟨[], x⟩

/-- A fault ends what comes behind it, so that no more cells are looked at. -/
protected def bind (x : Looking α) (k : α → Looking β) : Looking β :=
  match x.result with
  | .ok a => ⟨x.readings ++ (k a).readings, (k a).result⟩
  | .error cause => ⟨x.readings, .error cause⟩

instance : Monad Looking where
  pure a := still (.ok a)
  bind := Looking.bind

instance : LawfulMonad Looking := by
  refine .mk' Looking ?idMap ?pureBind ?bindAssoc
  case idMap =>
    rintro α ⟨readings, result⟩
    cases result with
    | error cause => rfl
    | ok a => exact congrArg (Looking.mk · _) (List.append_nil readings)
  case pureBind =>
    exact fun _ _ => rfl
  case bindAssoc =>
    rintro α β γ ⟨readings, result⟩ k l
    cases result with
    | error cause => rfl
    | ok a =>
      simp only [Bind.bind, Looking.bind]
      cases (k a).result with
      | error cause => rfl
      | ok b => exact congrArg (Looking.mk · _) (List.append_assoc _ _ _)

end Looking

def look (cells : Address → Option Value) (a : Address) : Looking Value := ⟨[a], cellValue cells a⟩

def watchReduction (cells : Address → Option Value) (op : Reduction) (addrs : List Address) :
    Looking Value :=
  match op with
  | .join => do
    let parts ← addrs.mapM fun a => do .still (textOf (← look cells a))
    return .text (String.join parts)
  | op => do
    let ns ← addrs.mapM fun a => do .still (numberOf (← look cells a))
    return .number (← .still (reduceNumbers op ns))

/-- The evaluation of a formula, with the cells that it looks at in their order. -/
def watch (cells : Address → Option Value) : Formula → Looking Value
  | .literal v => pure v
  | .reference a => look cells a
  | .reduction op addrs => watchReduction cells op addrs
  | .chain first op second rest => do
    let head ← .still (numberOf (← watch cells first))
    let next ← .still (numberOf (← watch cells second))
    let others ← operands rest
    return .number (← .still (runChain 0.0 head ((op, next) :: others)))
  | .choice left cmp right yes no => do
    let a ← watch cells left
    let b ← watch cells right
    if ← .still (compareValues cmp a b) then watch cells yes else watch cells no
where
  operands : List (Operator × Formula) → Looking (List (Operator × Float))
    | [] => pure []
    | (op, operand) :: rest => do
      let n ← .still (numberOf (← watch cells operand))
      return (op, n) :: (← operands rest)

variable {α β : Type} {cells cells' : Address → Option Value}

@[simp] theorem result_pure (a : α) : (pure a : Looking α).result = .ok a := rfl

@[simp] theorem result_still (x : Outcome α) : (Looking.still x).result = x := rfl

@[simp] theorem result_look (cells : Address → Option Value) (a : Address) :
    (look cells a).result = cellValue cells a := rfl

@[simp] theorem result_bind (x : Looking α) (k : α → Looking β) :
    (x >>= k).result = x.result >>= fun a => (k a).result := by
  obtain ⟨readings, result⟩ := x
  cases result <;> rfl

@[simp] theorem result_map (f : α → β) (x : Looking α) : (f <$> x).result = f <$> x.result := by
  rw [← bind_pure_comp, ← bind_pure_comp, result_bind]
  rfl

@[simp] theorem result_mapM (l : List α) (k : α → Looking β) :
    (l.mapM k).result = l.mapM fun a => (k a).result := by
  induction l with
  | nil => rfl
  | cons a l ih => simp [List.mapM_cons, ih]

theorem result_watchReduction (cells : Address → Option Value) (op : Reduction)
    (addrs : List Address) : (watchReduction cells op addrs).result = reduce cells op addrs := by
  cases op <;> simp [watchReduction, reduce]

theorem result_operands {rest : List (Operator × Formula)}
    (h : ∀ p ∈ rest, (watch cells p.2).result = outcome cells p.2) :
    (watch.operands cells rest).result = outcome.operands cells rest := by
  induction rest with
  | nil => rfl
  | cons p rest ih =>
    obtain ⟨first, others⟩ := List.forall_mem_cons.mp h
    simp [watch.operands, outcome.operands, first, ih others]

theorem result_watch (cells : Address → Option Value) (f : Formula) :
    (watch cells f).result = outcome cells f := by
  induction f with
  | literal v => rfl
  | reference a => rfl
  | reduction op addrs => exact result_watchReduction cells op addrs
  | chain first op second rest ih₁ ih₂ ih₃ =>
    simp [watch, outcome, ih₁, ih₂, result_operands ih₃]
  | choice left cmp right yes no ih₁ ih₂ ih₃ ih₄ =>
    simp [watch, outcome, ih₁, ih₂, apply_ite, ih₃, ih₄]

/-- Only cells of a list are looked at in the first evaluation, and the second one is the same if
these cells hold the same in it. -/
structure Settles (cells cells' : Address → Option Value) (l : List Address) (x x' : Looking α) :
    Prop where
  within : x.readings ⊆ l
  same : (∀ a ∈ x.readings, cells' a = cells a) → x' = x

variable {l : List Address}

theorem settles_still (x : Outcome α) : Settles cells cells' l (.still x) (.still x) :=
  ⟨List.nil_subset l, fun _ => rfl⟩

theorem settles_look {a : Address} (h : a ∈ l) :
    Settles cells cells' l (look cells a) (look cells' a) where
  within := List.forall_mem_singleton.mpr h
  same looked := by rw [look, look, cellValue, cellValue, looked a List.mem_cons_self]

theorem Settles.bind {x x' : Looking α} {k k' : α → Looking β} (h : Settles cells cells' l x x')
    (further : ∀ a, Settles cells cells' l (k a) (k' a)) :
    Settles cells cells' l (x >>= k) (x' >>= k') := by
  obtain ⟨readings, result⟩ := x
  obtain ⟨within, same⟩ := h
  cases result with
  | error cause =>
    refine ⟨within, fun looked => ?_⟩
    rw [same looked]
    rfl
  | ok a =>
    refine ⟨List.append_subset.mpr ⟨within, (further a).within⟩, fun looked => ?_⟩
    obtain ⟨here, later⟩ := List.forall_mem_append.mp looked
    rw [same here]
    change (⟨readings ++ (k' a).readings, (k' a).result⟩ : Looking β) = _
    rw [(further a).same later]
    rfl

theorem settles_mapM {as : List α} {k k' : α → Looking β}
    (h : ∀ a ∈ as, Settles cells cells' l (k a) (k' a)) :
    Settles cells cells' l (as.mapM k) (as.mapM k') := by
  induction as with
  | nil => exact settles_still _
  | cons a as ih =>
    obtain ⟨first, others⟩ := List.forall_mem_cons.mp h
    rw [List.mapM_cons, List.mapM_cons]
    exact first.bind fun _ => (ih others).bind fun _ => settles_still _

theorem settles_watchReduction {op : Reduction} {addrs : List Address} (h : addrs ⊆ l) :
    Settles cells cells' l (watchReduction cells op addrs) (watchReduction cells' op addrs) := by
  have each {γ : Type} (g : Value → Outcome γ) :
      Settles cells cells' l (addrs.mapM fun a => look cells a >>= fun v => .still (g v))
        (addrs.mapM fun a => look cells' a >>= fun v => .still (g v)) :=
    settles_mapM fun _ ha => (settles_look (h ha)).bind fun _ => settles_still _
  unfold watchReduction
  cases op with
  | join => exact (each textOf).bind fun _ => settles_still _
  | _ => exact (each numberOf).bind fun _ => (settles_still _).bind fun _ => settles_still _

theorem settles_operands {rest : List (Operator × Formula)}
    (h : ∀ p ∈ rest, Settles cells cells' l (watch cells p.2) (watch cells' p.2)) :
    Settles cells cells' l (watch.operands cells rest) (watch.operands cells' rest) := by
  induction rest with
  | nil => exact settles_still _
  | cons p rest ih =>
    obtain ⟨first, others⟩ := List.forall_mem_cons.mp h
    exact first.bind fun _ => (settles_still _).bind fun _ => (ih others).bind fun _ =>
      settles_still _

theorem settles_watch {f : Formula} (h : f.mentions ⊆ l) :
    Settles cells cells' l (watch cells f) (watch cells' f) := by
  induction f with
  | literal v => exact settles_still _
  | reference a => exact settles_look (h List.mem_cons_self)
  | reduction op addrs => exact settles_watchReduction h
  | chain first op second rest ih₁ ih₂ ih₃ =>
    simp only [mentions, List.append_subset] at h
    obtain ⟨⟨h₁, h₂⟩, h₃⟩ := h
    have others : Settles cells cells' l (watch.operands cells rest) (watch.operands cells' rest) :=
      settles_operands fun p hp => ih₃ p hp fun _ ha => h₃ (mem_mentionsRest.mpr ⟨p, hp, ha⟩)
    unfold watch
    apply (ih₁ h₁).bind
    intro v
    apply (settles_still (numberOf v)).bind
    intro head
    apply (ih₂ h₂).bind
    intro w
    apply (settles_still (numberOf w)).bind
    intro next
    exact others.bind fun _ => (settles_still _).bind fun _ => settles_still _
  | choice left cmp right yes no ih₁ ih₂ ih₃ ih₄ =>
    simp only [mentions, List.append_subset] at h
    obtain ⟨⟨⟨h₁, h₂⟩, h₃⟩, h₄⟩ := h
    unfold watch
    apply (ih₁ h₁).bind
    intro v
    apply (ih₂ h₂).bind
    intro w
    apply (settles_still (compareValues cmp v w)).bind
    intro holds
    split
    · exact ih₃ h₃
    · exact ih₄ h₄

variable {f : Formula}

theorem mem_references_of_readings {a : Address} (h : a ∈ (watch cells f).readings) :
    a ∈ f.references := by
  have settles : Settles cells cells f.mentions (watch cells f) (watch cells f) :=
    settles_watch (List.Subset.refl f.mentions)
  exact mem_references.mpr (settles.within h)

theorem watch_congr (h : ∀ a ∈ (watch cells f).readings, cells' a = cells a) :
    watch cells' f = watch cells f := (settles_watch (List.Subset.refl f.mentions)).same h

theorem evaluate_congr (h : ∀ a ∈ f.references, cells' a = cells a) :
    f.evaluate cells' = f.evaluate cells := by
  have same : watch cells' f = watch cells f :=
    watch_congr fun a ha => h a (mem_references_of_readings ha)
  rw [evaluate, evaluate, ← result_watch, ← result_watch, same]

/-- The references of a formula cover its evaluation. However the evaluation goes, it looks at
none but them; it would go the same way wherever the cells that it looks at hold the same, whatever
the others hold; and so the value is the same wherever the references hold the same. -/
theorem references_cover_evaluation (f : Formula) (cells cells' : Address → Option Value) :
    let w := watch cells f
    w.result = outcome cells f ∧
      (∀ a ∈ w.readings, a ∈ f.references) ∧
      ((∀ a ∈ w.readings, cells' a = cells a) → watch cells' f = w) ∧
      ((∀ a ∈ f.references, cells' a = cells a) → f.evaluate cells' = f.evaluate cells) := by
  intro w
  refine ⟨result_watch cells f, ?_, ?_, ?_⟩
  · exact fun a => mem_references_of_readings
  · exact watch_congr
  · exact evaluate_congr

end ReactiveSheet.Formula
