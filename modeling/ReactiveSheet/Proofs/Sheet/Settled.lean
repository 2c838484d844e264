import ReactiveSheet.Proofs.Formula.Alike
import ReactiveSheet.Proofs.Sheet.Lines

/-!
The values of a sheet are settled after every edit and do not depend on how it came about, as
long as nobody brings in a cycle fault.

A sheet is settled if every formula cell is current and the cycle fault is found behind cycles only.
An edit leaves cells alone that it might have had to touch: those whose parents kept their values.
Two inductions show that such a cell has kept its status. One goes over the cells away from cycles
after the edit (`Settled.off_cycle`), the other over those away from cycles before it
(`Settled.stays_off`). Both use that the fault in a cell tells where the cell is.

Two settled sheets with the same formulas have the same links, so the same cells are behind cycles.
Away from cycles an induction from parents to children shows that the values are alike, because
evaluation passes this on. They are even equal, as no cell holds the number that is no number.
-/

namespace ReactiveSheet

/-- An edit that brings in no cycle fault, neither as a value nor as a constant of a formula. -/
def Edit.CycleFree : Edit → Prop
  | .typed _ => True
  | .value v => v ≠ .fault .cycle
  | .formula f => ∀ v ∈ f.literals, v ≠ .fault .cycle

namespace Value

theorem madeOf_ne_cycle : Formula.MadeOf fun v => v ≠ .fault .cycle where
  text _ := Value.noConfusion
  number _ _ := Value.noConfusion
  fault _ h same := h (Value.fault.inj same)

theorem storable_ne_cycle {v : Value} (h : v ≠ .fault .cycle) : v.storable ≠ .fault .cycle := by
  cases v with
  | number n =>
    simp only [storable]
    split
    · exact Value.noConfusion
    · exact fun same => nomatch Value.fault.inj same
  | text s => exact h
  | fault cause => exact h

theorem ofTyped_ne_cycle (text : String) : ofTyped text ≠ .fault .cycle := by
  simp only [ofTyped]
  split
  · exact Value.noConfusion
  · split
    · split <;> exact Value.noConfusion
    · exact Value.noConfusion

end Value

namespace Sheet

variable {e : Extent} {s t : Sheet e} {a c : Address} {edit : Edit}

theorem worth_ne_cycle {f : Formula} (hs : Linked s) (hf : s.formula? c = some f)
    (own : ∀ v ∈ f.literals, v ≠ .fault .cycle) (off : ¬ s.Behind c)
    (read : ∀ p ∈ s.parents c, s.value? p ≠ some (.fault .cycle)) :
    s.worth c f ≠ .fault .cycle := by
  rw [worth_of_not_behind hs off]
  apply Formula.evaluate_of Value.madeOf_ne_cycle.closed own
  intro p hp v hv same
  exact read p ((hs.parents_of_formula hf).symm ▸ hp) (same ▸ hv)

structure Settled (s : Sheet e) : Prop where
  linked : Linked s
  constants : ∀ c f, s.formula? c = some f → ∀ v ∈ f.literals, v ≠ .fault .cycle
  current : ∀ c f, s.formula? c = some f → s.Current c f
  plain : ∀ c, s.formula? c = none → s.value? c ≠ some (.fault .cycle)

theorem Settled.ne_cycle (h : Settled s) :
    ∀ c, ¬ s.Behind c → s.value? c ≠ some (.fault .cycle) := by
  refine s.induction_off_cycles ?_
  intro c off ih
  cases hf : s.formula? c with
  | none => exact h.plain c hf
  | some f =>
    intro k
    exact worth_ne_cycle h.linked hf (h.constants c f hf) off ih ((h.current c f hf).eq_fault k)

theorem Settled.eq_cycle (h : Settled s) (behind : s.Behind c) :
    s.value? c = some (.fault .cycle) := by
  obtain ⟨f, hf⟩ := behind.formula h.linked
  exact (h.current c f hf).of_behind h.linked behind

theorem settled_blank : Settled (blank e) where
  linked := linked_blank
  constants c f hf := by simp at hf
  current c f hf := by simp at hf
  plain c _ k := by
    have inside : c ∈ e := isSome_value?.mp (by rw [k]; rfl)
    rw [value?_blank inside] at k
    exact nomatch k

theorem Edited.constants (h : Edited s a edit t) (hs : Settled s) (clean : edit.CycleFree)
    {f : Formula} (hf : t.formula? c = some f) : ∀ v ∈ f.literals, v ≠ .fault .cycle :=
  h.of_formula (hs.constants c) (fun g hg => by subst hg; exact clean) hf

theorem Edited.target_ne_cycle (h : Edited s a edit t) (hs : Settled s) (clean : edit.CycleFree)
    (off : ¬ t.Behind a) (read : ∀ p ∈ t.parents a, t.value? p ≠ some (.fault .cycle)) :
    t.value? a ≠ some (.fault .cycle) := by
  intro k
  refine absurd (h.target.eq_fault k) ?_
  cases edit with
  | typed text => exact Value.storable_ne_cycle (Value.ofTyped_ne_cycle text)
  | value v => exact Value.storable_ne_cycle clean
  | formula f =>
    have hf : t.formula? a = some f := h.formula_target
    exact worth_ne_cycle h.linked hf (h.constants hs clean hf) off read

/-- After an edit no cell away from cycles holds the cycle fault. -/
theorem Settled.off_cycle (hs : Settled s) (h : Edited s a edit t) (clean : edit.CycleFree) :
    ∀ c, ¬ t.Behind c → t.value? c ≠ some (.fault .cycle) := by
  refine t.induction_off_cycles ?_
  intro c off ih
  by_cases target : c = a
  · subst target
    exact h.target_ne_cycle hs clean off ih
  · cases hf : t.formula? c with
    | none =>
      rw [h.plain c target hf]
      exact hs.plain c (by rwa [h.formula, if_neg target] at hf)
    | some f =>
      intro k
      rcases h.others c f target hf with current | ⟨own, kept⟩
      · exact worth_ne_cycle h.linked hf (h.constants hs clean hf) off ih (current.eq_fault k)
      · -- a cell that kept the fault has a parent that kept it, and that one is not behind a cycle
        have before : s.Behind c := by
          by_contra off
          exact hs.ne_cycle c off (own ▸ k)
        obtain ⟨p, link, behind⟩ := behind_iff.mp before
        rw [← h.parents hs.linked target] at link
        exact ih p link ((kept p link).trans (hs.eq_cycle behind))

/-- A cell away from cycles that keeps its value and the values of its parents stays so. -/
theorem Settled.stays_off (hs : Settled s) (h : Edited s a edit t) :
    ∀ c, ¬ s.Behind c → c ≠ a → Kept s t c → ¬ t.Behind c := by
  refine s.induction_off_cycles ?_
  intro c off ih target kept behind
  obtain ⟨p, link, behind⟩ := behind_iff.mp behind
  have link' : p ∈ s.parents c := h.parents hs.linked target ▸ link
  have offp : ¬ s.Behind p := fun k => off (k.of_parent link')
  rcases h.eq_cycle_or_kept behind with value | ⟨other, keptp⟩
  · exact hs.ne_cycle p offp ((kept.2 p link).symm.trans value)
  · exact ih p link' other keptp behind

theorem Settled.edited (hs : Settled s) (h : Edited s a edit t) (clean : edit.CycleFree) :
    Settled t := by
  constructor
  case linked =>
    exact h.linked
  case constants =>
    exact fun c f hf => h.constants hs clean hf
  case current =>
    intro c f hf
    by_cases behind : t.Behind c
    · -- a cell that kept its value was behind a cycle before, and held the fault already
      refine current_of_behind h.linked behind ?_
      rcases h.eq_cycle_or_kept behind with value | ⟨target, kept⟩
      · exact value
      · have before : s.Behind c := by
          by_contra off
          exact hs.stays_off h c off target kept behind
        exact kept.1.trans (hs.eq_cycle before)
    · by_cases target : c = a
      · subst target
        exact h.target_current hf
      · rcases h.others c f target hf with current | kept
        · exact current
        · -- the same values of the same parents make the same value
          have off : ¬ s.Behind c := fun before =>
            hs.off_cycle h clean c behind (kept.1.trans (hs.eq_cycle before))
          have hf' : s.formula? c = some f := by rwa [h.formula, if_neg target] at hf
          have same : f.evaluate t.value? = f.evaluate s.value? :=
            Formula.evaluate_congr fun p hp =>
              kept.2 p ((h.linked.parents_of_formula hf).symm ▸ hp)
          obtain ⟨w, hw, eq⟩ := hs.current c f hf'
          refine ⟨w, kept.1.trans hw, ?_⟩
          rwa [worth_of_not_behind h.linked behind, same, ← worth_of_not_behind hs.linked off]
  case plain =>
    intro c hf
    exact hs.off_cycle h clean c (not_behind_of_formula_eq_none h.linked hf)

theorem settled_perform {history : List (Address × Edit)}
    (clean : ∀ x ∈ history, x.2.CycleFree) : Settled ((blank e).perform history) :=
  perform_preserves settled_blank fun _ _ _ _ _ mem settled h =>
    settled.edited (edited settled.linked h) (clean _ mem)

theorem Asks.cycleFree {line : String} (h : Asks e line a edit) : edit.CycleFree := by
  obtain ⟨input, -, makes⟩ := h
  cases makes with
  | literal text => trivial
  | text text => exact Value.noConfusion
  | formula read =>
    exact Formula.ofText_of_grown (Formula.grown_literals (fun _ => Value.noConfusion)
      fun _ => Value.noConfusion) read

theorem enter_eq_perform (s : Sheet e) (lines : List String) :
    ∃ history : List (Address × Edit), (∀ x ∈ history, x.2.CycleFree) ∧
      s.enter lines = s.perform history := by
  obtain ⟨history, asked, same⟩ := s.enter_eq_perform_asked lines
  refine ⟨history, fun x hx => ?_, same⟩
  obtain ⟨line, -, asks⟩ := asked x hx
  exact asks.cycleFree

/-- After every history that brings in no cycle fault, the cells that hold the cycle fault are the
formula cells from which a cycle can be reached through parents, and every other formula cell holds
what its formula evaluates to on the values of the sheet. Lines make such histories only. -/
theorem values_settle (e : Extent) :
    (∀ history : List (Address × Edit), (∀ x ∈ history, x.2.CycleFree) →
      let s := (blank e).perform history
      ∀ c f, s.formula? c = some f →
        (s.value? c = some (.fault .cycle) ↔ s.Behind c) ∧
          (¬ s.Behind c → s.Holds c (f.evaluate s.value?))) ∧
      ∀ lines : List String, ∃ history : List (Address × Edit), (∀ x ∈ history, x.2.CycleFree) ∧
        (blank e).enter lines = (blank e).perform history := by
  constructor
  · intro history clean s c f hf
    have settled : Settled s := settled_perform clean
    refine ⟨⟨?_, settled.eq_cycle⟩, ?_⟩
    · intro k
      by_contra off
      exact settled.ne_cycle c off k
    · intro off
      have current := settled.current c f hf
      rwa [Current, worth_of_not_behind settled.linked off] at current
  · exact enter_eq_perform (blank e)

/-- A cell that depends on another follows it, and a cell that refers to itself shows the fault. -/
theorem values_settle_choice_beside_loop :
    let e : Extent := ⟨1, 3, by decide, by decide, by decide, by decide⟩
    let a : Address := ⟨0, 0⟩
    let b : Address := ⟨0, 1⟩
    let c : Address := ⟨0, 2⟩
    let choice : Formula := .choice (.reference a) .equal (.literal (.text "new"))
      (.literal (.number 1)) (.literal (.number 2))
    let s := (blank e).perform [(b, .formula choice), (c, .formula (.reference c)),
      (a, .value (.text "new"))]
    (s.value? b == some (.number 1)) = true ∧ s.value? c = some (.fault .cycle) := by
  intro e a b c choice s
  have ha : a ∈ e := by decide
  have hb : b ∈ e := by decide
  have hc : c ∈ e := by decide
  have only {p : Address} (hp : p ∈ e) : ∀ q ∈ readBy (some (.reference p)), q ∈ e :=
    fun q hq => List.mem_singleton.mp hq ▸ hp
  obtain ⟨t, r, -, first, go₁⟩ := exists_edited linked_blank (.formula choice) hb (only ha)
  obtain ⟨u, r', -, second, go₂⟩ :=
    exists_edited first.linked (.formula (.reference c)) hc (only hc)
  obtain ⟨v, r'', -, third, go₃⟩ := exists_edited second.linked (.value (.text "new")) ha
    fun p hp => absurd hp List.not_mem_nil
  have same : (blank e).perform [(b, .formula choice), (c, .formula (.reference c)),
      (a, .value (.text "new"))] = v := (go₁ _).trans ((go₂ _).trans (go₃ _))
  have reader : v.formula? b = some choice := by
    rw [third.formula_of_ne (by decide), second.formula_of_ne (by decide)]
    exact first.formula_target
  have loop : v.formula? c = some (.reference c) := by
    rw [third.formula_of_ne (by decide)]
    exact second.formula_target
  have clean : ∀ x ∈ [(b, Edit.formula choice), (c, .formula (.reference c)),
      (a, .value (.text "new"))], x.2.CycleFree := by
    simp [choice, Edit.CycleFree, Formula.literals]
  have settles := (values_settle e).1 _ clean
  dsimp only at settles
  rw [same] at settles
  rw [show s = v from same]
  constructor
  · have parents : v.parents b = [a] := third.linked.parents_of_formula reader
    have off : ¬ v.Behind b := by
      rw [not_behind_iff, parents]
      refine List.forall_mem_singleton.mpr ?_
      exact not_behind_of_formula_eq_none third.linked third.formula_target
    have read : v.value? a = some (.text "new") := (holds_iff rfl).mp third.target
    have worth : choice.evaluate v.value? = .number 1 := by
      simp only [choice, Formula.evaluate, Formula.outcome, Formula.cellValue, read]
      rfl
    obtain ⟨w, hw, eq⟩ := (settles b choice reader).2 off
    rw [worth] at eq
    rw [hw]
    rcases eq with rfl | eq
    · decide
    · exact eq
  · have parents : v.parents c = [c] := third.linked.parents_of_formula loop
    have link : c ∈ v.parents c := parents ▸ List.mem_singleton_self c
    exact (settles c _ loop).1.mpr (DependsOn.behind (.single link))

end Sheet

/-- An edit that does not bring in the number that is no number. Only a constant of a formula can,
since a value is made storable first. -/
def Edit.NaNFree : Edit → Prop
  | .formula f => ∀ v ∈ f.literals, v.isNaN = false
  | _ => True

namespace Value

theorem madeOf_not_isNaN : Formula.MadeOf fun v => v.isNaN = false where
  text _ := rfl
  number _ := Numeral.isNaN_of_isFinite
  fault _ _ := rfl

theorem isNaN_storable (v : Value) : v.storable.isNaN = false := by
  cases v with
  | number n =>
    simp only [storable]
    split
    · rename_i h
      exact Numeral.isNaN_of_isFinite h
    · rfl
  | text s => rfl
  | fault cause => rfl

theorem rel_of_beq {v w : Option Value} (h : (v == w) = true) : Option.Rel Alike v w := by
  cases v with
  | none =>
    cases w with
    | none => exact .none
    | some w => exact absurd h Bool.noConfusion
  | some v =>
    cases w with
    | none => exact absurd h Bool.noConfusion
    | some w => exact .some (.of_beq h)

end Value

namespace Sheet

variable {e : Extent} {s t : Sheet e} {a c : Address} {edit : Edit}

theorem Holds.alike {v : Value} (h : s.Holds c v) : ∃ w, s.value? c = some w ∧ w.Alike v := by
  obtain ⟨w, hw, rfl | same⟩ := h
  · exact ⟨w, hw, .refl w⟩
  · exact ⟨w, hw, .of_beq same⟩

structure Proper (s : Sheet e) : Prop where
  constants : ∀ c f, s.formula? c = some f → ∀ v ∈ f.literals, v.isNaN = false
  plain : ∀ c v, s.formula? c = none → s.value? c = some v → v.isNaN = false

theorem proper_blank : Proper (blank e) where
  constants c f hf := by simp at hf
  plain c v _ hv := by
    have inside : c ∈ e := isSome_value?.mp (by rw [hv]; rfl)
    rw [value?_blank inside] at hv
    obtain rfl := Option.some.inj hv
    rfl

theorem Proper.edited (hs : Proper s) (h : Edited s a edit t) (proper : edit.NaNFree) :
    Proper t where
  constants c f := h.of_formula (hs.constants c) fun g hg => by subst hg; exact proper
  plain c v hf hv := by
    by_cases target : c = a
    · subst target
      obtain ⟨w, hw, alike⟩ := h.target.alike
      obtain rfl := Option.some.inj (hw.symm.trans hv)
      rw [alike.isNaN]
      cases edit with
      | typed text => exact Value.isNaN_storable _
      | value v => exact Value.isNaN_storable v
      | formula f =>
        rw [h.formula, if_pos rfl] at hf
        exact nomatch hf
    · rw [h.formula, if_neg target] at hf
      refine hs.plain c v hf ?_
      rw [← h.plain c target (by rw [h.formula, if_neg target, hf]), hv]

theorem Settled.not_isNaN (settled : Settled s) (proper : Proper s) :
    ∀ c, ∀ v, s.value? c = some v → v.isNaN = false := by
  have off : ∀ c, ¬ s.Behind c → ∀ v, s.value? c = some v → v.isNaN = false := by
    refine s.induction_off_cycles ?_
    intro c off ih v hv
    cases hf : s.formula? c with
    | none => exact proper.plain c v hf hv
    | some f =>
      obtain ⟨w, hw, alike⟩ := (settled.current c f hf).alike
      obtain rfl := Option.some.inj (hw.symm.trans hv)
      rw [worth_of_not_behind settled.linked off] at alike
      rw [alike.isNaN]
      apply Formula.evaluate_of Value.madeOf_not_isNaN.closed (proper.constants c f hf)
      intro p hp
      exact ih p ((settled.linked.parents_of_formula hf).symm ▸ hp)
  intro c v hv
  by_cases behind : s.Behind c
  · obtain rfl := Option.some.inj ((settled.eq_cycle behind).symm.trans hv)
    rfl
  · exact off c behind v hv

theorem readBy_of_beq {f g : Option Formula} (h : (f == g) = true) : readBy f = readBy g := by
  cases f with
  | none =>
    cases g with
    | none => rfl
    | some g => exact absurd h Bool.noConfusion
  | some f =>
    cases g with
    | none => exact absurd h Bool.noConfusion
    | some g => exact Formula.references_of_same h

theorem Linked.same_parents (hs : Linked s) (ht : Linked t)
    (same : ∀ c, (s.formula? c == t.formula? c) = true) : s.parents = t.parents := by
  funext c
  rw [hs.parents_eq, ht.parents_eq, readBy_of_beq (same c)]

theorem Linked.same_children (hs : Linked s) (ht : Linked t) (same : s.parents = t.parents) :
    s.children = t.children := by
  funext p
  apply Address.eq_of_mem_iff (hs.ascending p) (ht.ascending p)
  intro c
  rw [hs.mem_children, ht.mem_children, same]

theorem Settled.alike (hs : Settled s) (ht : Settled t)
    (formulas : ∀ c, (s.formula? c == t.formula? c) = true)
    (values : ∀ c, s.formula? c = none → (s.value? c == t.value? c) = true) (c : Address) :
    Option.Rel Value.Alike (s.value? c) (t.value? c) := by
  have parents : s.parents = t.parents := hs.linked.same_parents ht.linked formulas
  have behind (c : Address) : s.Behind c ↔ t.Behind c := by rw [Behind, Behind, parents]
  by_cases k : s.Behind c
  · rw [hs.eq_cycle k, ht.eq_cycle ((behind c).mp k)]
    exact .some (.refl _)
  · revert c
    refine s.induction_off_cycles ?_
    intro c off ih
    have same := formulas c
    cases hf : s.formula? c with
    | none => exact Value.rel_of_beq (values c hf)
    | some f =>
      rw [hf] at same
      cases hg : t.formula? c with
      | none =>
        rw [hg] at same
        exact absurd same Bool.noConfusion
      | some g =>
        rw [hg] at same
        obtain ⟨v, hv, alike⟩ := (hs.current c f hf).alike
        obtain ⟨w, hw, alike'⟩ := (ht.current c g hg).alike
        rw [worth_of_not_behind hs.linked off] at alike
        rw [worth_of_not_behind ht.linked (mt (behind c).mpr off)] at alike'
        have evaluated := Formula.evaluate_alike (f := f) (g := g) same fun p hp =>
          ih p ((hs.linked.parents_of_formula hf).symm ▸ hp)
        rw [hv, hw]
        exact .some (alike.trans (evaluated.trans alike'.symm))

theorem proper_perform {history : List (Address × Edit)} (clean : ∀ x ∈ history, x.2.NaNFree) :
    Proper ((blank e).perform history) := by
  have both : Linked ((blank e).perform history) ∧ Proper ((blank e).perform history) := by
    refine perform_preserves (P := fun s => Linked s ∧ Proper s) ⟨linked_blank, proper_blank⟩ ?_
    intro s t a edit r mem ⟨linked, proper⟩ h
    exact ⟨(edited linked h).linked, proper.edited (edited linked h) (clean _ mem)⟩
  exact both.2

theorem Settled.beq_of_rel (settled : Settled s) (proper : Proper s) {v : Option Value}
    (h : Option.Rel Value.Alike (s.value? c) v) : (s.value? c == v) = true := by
  have number := settled.not_isNaN proper c
  generalize s.value? c = w at h number ⊢
  cases h with
  | none => rfl
  | some h => exact h.beq (number _ rfl)

/-- Histories that lead to the same formulas, and to equal values where no formula is, lead to equal
values and the same links everywhere, as long as they bring in neither cycle faults nor the number
that is no number. -/
theorem history_independence (e : Extent) {history history' : List (Address × Edit)}
    (clean : ∀ x ∈ history ++ history', x.2.CycleFree ∧ x.2.NaNFree)
    (formulas : ∀ c, (((blank e).perform history).formula? c ==
      ((blank e).perform history').formula? c) = true)
    (values : ∀ c, ((blank e).perform history).formula? c = none →
      (((blank e).perform history).value? c == ((blank e).perform history').value? c) = true) :
    ∀ c, (((blank e).perform history).value? c == ((blank e).perform history').value? c) = true ∧
      ((blank e).perform history).parents c = ((blank e).perform history').parents c ∧
      ((blank e).perform history).children c = ((blank e).perform history').children c := by
  have settled : Settled ((blank e).perform history) :=
    settled_perform fun x hx => (clean x (List.mem_append_left _ hx)).1
  have settled' : Settled ((blank e).perform history') :=
    settled_perform fun x hx => (clean x (List.mem_append_right _ hx)).1
  have proper : Proper ((blank e).perform history) :=
    proper_perform fun x hx => (clean x (List.mem_append_left _ hx)).2
  have parents := settled.linked.same_parents settled'.linked formulas
  have children := settled.linked.same_children settled'.linked parents
  intro c
  refine ⟨?_, congrFun parents c, congrFun children c⟩
  exact settled.beq_of_rel proper (settled.alike settled' formulas values c)

/-- It does not matter whether a cell is written to before another is made to read it. -/
theorem history_independence_reader :
    let e : Extent := ⟨1, 2, by decide, by decide, by decide, by decide⟩
    let a : Address := ⟨0, 0⟩
    let b : Address := ⟨0, 1⟩
    let write : Address × Edit := (a, .value (.text "new"))
    let read : Address × Edit := (b, .formula (.reference a))
    ∀ c, (((blank e).perform [write, read]).value? c ==
        ((blank e).perform [read, write]).value? c) = true ∧
      ((blank e).perform [write, read]).parents c = ((blank e).perform [read, write]).parents c ∧
      ((blank e).perform [write, read]).children c =
        ((blank e).perform [read, write]).children c := by
  intro e a b write read
  have ha : a ∈ e := by decide
  have hb : b ∈ e := by decide
  have apart : a ≠ b := by decide
  have nothing : ∀ p ∈ readBy none, p ∈ e := fun p hp => absurd hp List.not_mem_nil
  have only : ∀ p ∈ readBy (some (.reference a)), p ∈ e := fun p hp =>
    List.mem_singleton.mp hp ▸ ha
  obtain ⟨s, r, -, written, go⟩ := exists_edited linked_blank write.2 ha nothing
  obtain ⟨t, r₁, -, late, go₁⟩ := exists_edited written.linked read.2 hb only
  obtain ⟨u, r₂, -, early, go₂⟩ := exists_edited linked_blank read.2 hb only
  obtain ⟨v, r₃, -, rewritten, go₃⟩ := exists_edited early.linked write.2 ha nothing
  have same : (blank e).perform [write, read] = t := (go _).trans (go₁ _)
  have same' : (blank e).perform [read, write] = v := (go₂ _).trans (go₃ _)
  have formula (c : Address) : t.formula? c = v.formula? c := by
    rw [late.formula, written.formula, rewritten.formula, early.formula]
    by_cases target : c = a
    · rw [if_neg (target ▸ apart), if_pos target, if_pos target]
    · rw [if_neg target, if_neg target]
  have clean : ∀ x ∈ [write, read] ++ [read, write], x.2.CycleFree ∧ x.2.NaNFree := by
    simp [write, read, Edit.CycleFree, Edit.NaNFree, Formula.literals]
  refine history_independence e clean ?_ ?_
  · intro c
    rw [same, same', ← formula, late.formula, written.formula, formula?_blank]
    split
    · exact decide_eq_true (Eq.refl a)
    · split <;> rfl
  · intro c plain
    rw [same] at plain
    rw [same, same']
    -- neither order has touched a plain cell other than the first
    have other : c ≠ b := fun hc =>
      Option.some_ne_none _ (late.formula_target.symm.trans (hc ▸ plain))
    rw [late.plain c other plain]
    by_cases target : c = a
    · rw [target, (holds_iff rfl).mp written.target, (holds_iff rfl).mp rewritten.target]
      rfl
    · have plain' : s.formula? c = none := late.formula_of_ne other ▸ plain
      rw [written.plain c target plain', rewritten.plain c target (formula c ▸ plain),
        early.plain c other (rewritten.formula_of_ne target ▸ formula c ▸ plain)]
      by_cases inside : c ∈ e
      · rw [value?_blank inside]
        rfl
      · rw [value?, cell?_of_not_mem inside]
        rfl

end Sheet

end ReactiveSheet
