import ReactiveSheet.Formula.Grammar
import ReactiveSheet.Proofs.Formula.Evaluation

/-!
What every formula that is read from text has.

`Grown` lists the ways in which a reader makes formulas. A property of formulas that is passed on
in all of them holds of every formula read: `ofText_of_grown`. So the constants of such a formula
are numbers and texts.
-/

namespace ReactiveSheet

/-- A property that readers pass on from the parts of a formula to the whole. -/
structure Grown (P : Formula → Prop) : Prop where
  number : ∀ n, P (.literal (.number n))
  text : ∀ s, P (.literal (.text s))
  reference : ∀ a, P (.reference a)
  reduction : ∀ op cells, P (.reduction op cells)
  negated : ∀ f, P f → P f.negated
  ofChain : ∀ first rest, P first → (∀ p ∈ rest, P p.2) → P (.ofChain first rest)
  choice : ∀ left cmp right yes no, P left → P right → P yes → P no →
    P (.choice left cmp right yes no)

namespace Reader

theorem of_bind_eq_ok {ε α β : Type} {x : Except ε α} {g : α → Except ε β} {y : β}
    (h : (x >>= g) = .ok y) : ∃ a, x = .ok a ∧ g a = .ok y := by
  cases x with
  | ok a => exact ⟨a, rfl, h⟩
  | error cause => exact nomatch h

def Yields (P : Formula → Prop) (r : Reader Formula) : Prop :=
  ∀ ts x, r ts = .ok x → P x.value

variable {P : Formula → Prop} {operand : Reader Formula}

theorem chainRest_yields (h : Yields P operand) {ts : Tokens}
    {x : Trailing (List (Operator × Formula)) ts} (hx : chainRest operand ts = .ok x) :
    ∀ p ∈ x.value, P p.2 := by
  fun_induction chainRest operand ts with
  | case1 op rest ih =>
    obtain ⟨-, -, hx⟩ := of_bind_eq_ok hx
    obtain ⟨next, hnext, hx⟩ := of_bind_eq_ok hx
    obtain ⟨others, hothers, hx⟩ := of_bind_eq_ok hx
    obtain rfl := Except.ok.inj hx
    exact List.forall_mem_cons.mpr ⟨h _ _ hnext, ih next hothers⟩
  | case2 ts =>
    obtain rfl := Except.ok.inj hx
    exact fun p hp => absurd hp List.not_mem_nil

theorem expression_yields (grown : Grown P) (h : Yields P operand) :
    Yields P (expression operand) := by
  intro ts x hx
  obtain ⟨first, hfirst, hx⟩ := of_bind_eq_ok hx
  obtain ⟨others, hothers, hx⟩ := of_bind_eq_ok hx
  obtain rfl := Except.ok.inj hx
  exact grown.ofChain _ _ (h _ _ hfirst) (chainRest_yields h hothers)

theorem choice_yields (grown : Grown P) (h : Yields P operand) : Yields P (choice operand) := by
  have inner := expression_yields grown h
  intro ts x hx
  obtain ⟨start, -, hx⟩ := of_bind_eq_ok hx
  obtain ⟨left, hleft, hx⟩ := of_bind_eq_ok hx
  obtain ⟨cmp, -, hx⟩ := of_bind_eq_ok hx
  obtain ⟨right, hright, hx⟩ := of_bind_eq_ok hx
  obtain ⟨comma₁, -, hx⟩ := of_bind_eq_ok hx
  obtain ⟨yes, hyes, hx⟩ := of_bind_eq_ok hx
  obtain ⟨comma₂, -, hx⟩ := of_bind_eq_ok hx
  obtain ⟨no, hno, hx⟩ := of_bind_eq_ok hx
  obtain ⟨finish, -, hx⟩ := of_bind_eq_ok hx
  obtain rfl := Except.ok.inj hx
  exact grown.choice _ _ _ _ _ (inner _ _ hleft) (inner _ _ hright) (inner _ _ hyes)
    (inner _ _ hno)

theorem reduction_yields (grown : Grown P) (e : Extent) (op : Reduction) :
    Yields P (reduction e op) := by
  intro ts x hx
  obtain ⟨start, -, hx⟩ := of_bind_eq_ok hx
  obtain ⟨cells, -, hx⟩ := of_bind_eq_ok hx
  obtain ⟨finish, -, hx⟩ := of_bind_eq_ok hx
  obtain rfl := Except.ok.inj hx
  exact grown.reduction op cells.value

theorem application_yields (grown : Grown P) (e : Extent) (h : Yields P operand) (name : String) :
    Yields P (application e operand name) := by
  unfold application
  split
  · exact choice_yields grown h
  · split
    · exact fun ts x hx => nomatch hx
    · exact reduction_yields grown e _

theorem primary_yields (grown : Grown P) (e : Extent) (h : Yields P operand) :
    Yields P (primary e operand) := by
  intro ts x hx
  unfold primary at hx
  split at hx
  · obtain ⟨-, -, hx⟩ := of_bind_eq_ok hx
    obtain rfl := Except.ok.inj hx
    exact grown.number _
  · obtain ⟨-, -, hx⟩ := of_bind_eq_ok hx
    obtain rfl := Except.ok.inj hx
    exact grown.text _
  · obtain ⟨-, -, hx⟩ := of_bind_eq_ok hx
    obtain ⟨body, hbody, hx⟩ := of_bind_eq_ok hx
    obtain ⟨finish, -, hx⟩ := of_bind_eq_ok hx
    obtain rfl := Except.ok.inj hx
    have := expression_yields grown h _ _ hbody
    exact this
  · obtain ⟨-, -, hx⟩ := of_bind_eq_ok hx
    obtain ⟨inner, hinner, hx⟩ := of_bind_eq_ok hx
    obtain rfl := Except.ok.inj hx
    exact grown.negated _ (h _ _ hinner)
  · obtain ⟨-, -, hx⟩ := of_bind_eq_ok hx
    obtain ⟨a, -, hx⟩ := of_bind_eq_ok hx
    obtain rfl := Except.ok.inj hx
    exact grown.reference a
  · obtain ⟨-, -, hx⟩ := of_bind_eq_ok hx
    split at hx
    · obtain ⟨applied, happlied, hx⟩ := of_bind_eq_ok hx
      obtain rfl := Except.ok.inj hx
      have := application_yields grown e h _ _ _ happlied
      exact this
    · exact nomatch hx
  · exact nomatch hx

theorem operand_yields (grown : Grown P) (e : Extent) (levels : Nat) :
    Yields P (Reader.operand e levels) := by
  induction levels with
  | zero => exact fun ts x hx => nomatch hx
  | succ levels ih => exact primary_yields grown e ih

end Reader

namespace Formula

theorem ofText_of_grown {P : Formula → Prop} (grown : Grown P) {e : Extent} {text : String}
    {f : Formula} (h : ofText e text = .ok f) : P f := by
  unfold ofText ofTokens at h
  obtain ⟨-, -, h⟩ := Reader.of_bind_eq_ok h
  split at h
  · obtain ⟨whole, hwhole, h⟩ := Reader.of_bind_eq_ok h
    split at h
    · obtain rfl := Except.ok.inj h
      exact Reader.expression_yields grown (Reader.operand_yields grown e maxLevels) _ _ hwhole
    · exact nomatch h
  · exact nomatch h

theorem of_mem_literals_negated {f : Formula} {v : Value} (h : v ∈ f.negated.literals) :
    (∃ n, v = .number n) ∨ v ∈ f.literals := by
  unfold negated at h
  split at h
  · exact Or.inl ⟨_, List.mem_singleton.mp h⟩
  · simp only [literals, literals.literalsRest, List.append_nil, List.mem_append,
      List.mem_singleton] at h
    exact h.imp_left fun zero => ⟨0, zero⟩

theorem of_mem_literals_ofChain {first : Formula} {rest : List (Operator × Formula)} {v : Value}
    (h : v ∈ (Formula.ofChain first rest).literals) :
    v ∈ first.literals ∨ ∃ p ∈ rest, v ∈ p.2.literals := by
  cases rest with
  | nil => exact Or.inl h
  | cons p rest =>
    simp only [Formula.ofChain, literals, List.mem_append, mem_literalsRest] at h
    rcases h with (head | second) | ⟨q, hq, later⟩
    · exact Or.inl head
    · exact Or.inr ⟨p, List.mem_cons_self, second⟩
    · exact Or.inr ⟨q, List.mem_cons_of_mem p hq, later⟩

/-- What numbers and texts have in common, the constants of a formula that is read have. -/
theorem grown_literals {P : Value → Prop} (number : ∀ n, P (.number n)) (text : ∀ s, P (.text s)) :
    Grown fun f => ∀ v ∈ f.literals, P v where
  number n := by simpa [literals] using number n
  text s := by simpa [literals] using text s
  reference a := by simp [literals]
  reduction op cells := by simp [literals]
  negated f h v hv := by
    rcases of_mem_literals_negated hv with ⟨n, rfl⟩ | own
    · exact number n
    · exact h v own
  ofChain first rest h k v hv := by
    rcases of_mem_literals_ofChain hv with head | ⟨p, hp, later⟩
    · exact h v head
    · exact k p hp v later
  choice left cmp right yes no h₁ h₂ h₃ h₄ v hv := by
    simp only [literals, List.mem_append] at hv
    rcases hv with ((hv | hv) | hv) | hv
    · exact h₁ v hv
    · exact h₂ v hv
    · exact h₃ v hv
    · exact h₄ v hv

end Formula

end ReactiveSheet
