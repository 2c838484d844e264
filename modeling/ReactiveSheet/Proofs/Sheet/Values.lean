import ReactiveSheet.Proofs.Sheet.History

/-!
Properties of values that no edit takes away, and which numbers cells can hold.

A formula `Passes` a property if its value has it whenever the cells have it that the formula reads.
If the cycle fault has the property, all values in a sheet have it and all formulas pass it, this
stays so after every edit that brings in no other values and formulas.

Typed text, values and arithmetic give finite numbers only. The constants of a formula are not
looked at, so a number that is not finite is found in a cell only if a formula has brought it in as
a constant, and every such constant can be.
-/

namespace ReactiveSheet

/-- The value of the formula has the property if the values of the cells have it that it reads. -/
def Formula.Passes (P : Value → Prop) (f : Formula) : Prop :=
  ∀ cells : Address → Option Value, (∀ a ∈ f.references, ∀ v, cells a = some v → P v) →
    P (f.evaluate cells)

def Edit.Brings (P : Value → Prop) : Edit → Prop
  | .typed text => P (Value.ofTyped text).storable
  | .value v => P v.storable
  | .formula f => f.Passes P

namespace Sheet

variable {e : Extent} {s t : Sheet e} {a : Address} {v : Value} {P : Value → Prop}

/-- All values in the sheet have the property, and all formulas pass it. -/
structure Keeping (P : Value → Prop) (s : Sheet e) : Prop where
  linked : Linked s
  values : ∀ c v, s.value? c = some v → P v
  formulas : ∀ c f, s.formula? c = some f → f.Passes P

theorem keeping_blank (empty : P .empty) : Keeping P (blank e) where
  linked := linked_blank
  values c v h := by
    have inside : c ∈ e := isSome_value?.mp (Option.isSome_iff_exists.mpr ⟨v, h⟩)
    rw [value?_blank inside] at h
    exact Option.some.inj h ▸ empty
  formulas c f h := by
    rw [formula?_blank] at h
    exact nomatch h

theorem worth_of_passes {f : Formula} (cycle : P (.fault .cycle)) (passes : f.Passes P)
    (values : ∀ c v, s.value? c = some v → P v) (a : Address) : P (s.worth a f) := by
  unfold worth
  cases s.cycleFrom? a with
  | some path => exact cycle
  | none => exact passes s.value? fun c _ => values c

theorem values_put (values : ∀ c v, s.value? c = some v → P v) (new : P v) (a : Address) :
    ∀ c w, (s.put a v).value? c = some w → P w := by
  intro c w h
  by_cases own : c = a
  · subst own
    have inside : c ∈ e := isSome_value?.mp (Option.isSome_iff_exists.mpr ⟨w, h⟩)
    rw [value?_put_self inside] at h
    exact Option.some.inj h ▸ new
  · rw [value?_put_of_ne s own] at h
    exact values c w h

theorem values_recomputes (cycle : P (.fault .cycle))
    (formulas : ∀ c f, s.formula? c = some f → f.Passes P) (origin : Address) :
    Recomputes s origin fun t _ => ∀ c v, t.value? c = some v → P v where
  kept _ _ _ _ _ values := values
  changed _ _ _ hf _ values :=
    values_put values (worth_of_passes cycle (formulas _ _ hf) values _) _

theorem values_follow (cycle : P (.fault .cycle)) (keeping : Keeping P s) (new : P v) {r : Report}
    (hr : r.changed = #[]) :
    ∀ c w, (follow a (s.store a v r)).1.value? c = some w → P w := by
  by_cases same : (s.value? a == some v) = true
  · rw [store_of_beq same]
    exact keeping.values
  · rw [store_of_not_beq same]
    have form := sameForm_put s a v
    have linked : Linked (s.put a v) := keeping.linked.of_sameForm form
    have formulas : ∀ c f, (s.put a v).formula? c = some f → f.Passes P :=
      form.formula ▸ keeping.formulas
    obtain ⟨dirty, values, -⟩ := propagate_preserves (values_recomputes cycle formulas a) linked
      (r := { r with changed := r.changed.push a }) (new_of_stored linked hr)
      (values_put keeping.values new a)
    exact values

theorem Keeping.rewire {f : Option Formula} (keeping : Keeping P s) (ha : a ∈ e)
    (inside : ∀ p ∈ readBy f, p ∈ e) (new : ∀ g, f = some g → g.Passes P) :
    Keeping P (s.rewire a f) where
  linked := keeping.linked.rewire ha inside
  values := value?_rewire keeping.linked ha inside ▸ keeping.values
  formulas c g hg := by
    rw [formula?_rewire keeping.linked ha inside] at hg
    split at hg
    · exact new g hg
    · exact keeping.formulas c g hg

theorem Keeping.edited {edit : Edit} {r : Report} (keeping : Keeping P s)
    (cycle : P (.fault .cycle)) (brings : edit.Brings P) (h : s.edit a edit = .ok (t, r)) :
    Keeping P t := by
  obtain ⟨ha, inside, note, hnote, eq⟩ := edit_eq_follow h
  let u := s.rewire a edit.formula?
  have rewired : Keeping P u := by
    refine keeping.rewire ha inside fun f hf => ?_
    cases edit with
    | typed text => exact nomatch hf
    | value v => exact nomatch hf
    | formula g => exact Option.some.inj hf ▸ brings
  have due : P (u.dueBy a edit) := by
    cases edit with
    | typed text => exact brings
    | value v => exact brings
    | formula f => exact worth_of_passes cycle brings rewired.values a
  have values := values_follow cycle rewired due hnote (a := a)
  rw [show follow a (u.store a (u.dueBy a edit) note) = (t, r) from eq] at values
  have done := Sheet.edited keeping.linked h
  refine ⟨done.linked, values, fun c f hf => rewired.formulas c f ?_⟩
  rw [formula?_rewire keeping.linked ha inside, ← done.formula]
  exact hf

theorem keeping_perform {history : List (Address × Edit)} (start : Keeping P s)
    (cycle : P (.fault .cycle)) (brings : ∀ x ∈ history, x.2.Brings P) :
    Keeping P (s.perform history) :=
  perform_preserves start fun _ _ _ _ _ mem keeping h => keeping.edited cycle (brings _ mem) h

end Sheet

/-- The numbers among the constants of a formula that the edit brings in are allowed. -/
def Edit.Uses (allowed : Float → Prop) : Edit → Prop
  | .typed _ => True
  | .value _ => True
  | .formula f => ∀ n, .number n ∈ f.literals → allowed n

namespace Value

def Within (allowed : Float → Prop) (v : Value) : Prop :=
  ∀ n, v = .number n → n.isFinite = true ∨ allowed n

variable {allowed : Float → Prop}

theorem within_number {n : Float} :
    (Value.number n).Within allowed ↔ n.isFinite = true ∨ allowed n :=
  ⟨fun h => h n rfl, fun h _ same => Value.number.inj same ▸ h⟩

theorem madeOf_within : Formula.MadeOf (Within allowed) where
  text _ _ same := nomatch same
  number _ finite := within_number.mpr (Or.inl finite)
  fault _ _ _ same := nomatch same

theorem within_storable (v : Value) : v.storable.Within allowed := by
  cases v with
  | number n =>
    rw [storable]
    split
    · rename_i finite
      exact within_number.mpr (Or.inl finite)
    · exact fun m same => nomatch same
  | text s => exact fun m same => nomatch same
  | fault cause => exact fun m same => nomatch same

end Value

theorem Edit.Uses.brings {allowed : Float → Prop} {edit : Edit} (h : edit.Uses allowed) :
    edit.Brings (Value.Within allowed) := by
  cases edit with
  | typed text => exact Value.within_storable _
  | value v => exact Value.within_storable v
  | formula f =>
    intro cells read
    refine Formula.evaluate_of Value.madeOf_within.closed (fun v hv n same => ?_) read
    exact Or.inr (h n (same ▸ hv))

namespace Sheet

variable {e : Extent} {a : Address} {n : Float}

theorem value?_perform_first {edit : Edit} (ha : a ∈ e) (inside : ∀ p ∈ readBy edit.formula?, p ∈ e)
    (due : ((blank e).rewire a edit.formula?).dueBy a edit = .number n) :
    ((blank e).perform [(a, edit)]).value? a = some (.number n) := by
  obtain ⟨⟨t, r⟩, h⟩ := edit_of_inside (blank e) edit ha inside
  obtain ⟨-, -, note, hnote, eq⟩ := edit_eq_follow h
  have before : ((blank e).rewire a edit.formula?).value? a = some .empty := by
    rw [value?_rewire linked_blank ha inside, value?_blank ha]
  have other : ¬ (((blank e).rewire a edit.formula?).value? a == some (.number n)) = true := by
    rw [before]
    exact Bool.false_ne_true
  have stays := value?_follow (linked_blank.rewire ha inside) a (.number n) hnote
  rw [due] at eq
  rw [eq, store_of_not_beq other, value?_put_self ha] at stays
  rw [perform, h]
  exact stays

theorem worth_literal (ha : a ∈ e) (v : Value) :
    ((blank e).rewire a (some (.literal v))).worth a (.literal v) = v := by
  have inside : ∀ p ∈ readBy (some (.literal v)), p ∈ e := fun _ hp => nomatch hp
  have linked := linked_blank.rewire ha inside
  refine worth_of_not_behind linked fun behind => ?_
  obtain ⟨_, link, -⟩ := behind_iff.mp behind
  rw [linked.parents_eq, formula?_rewire linked_blank ha inside, if_pos rfl] at link
  exact nomatch link

theorem value?_literal (ha : a ∈ e) (n : Float) :
    ((blank e).perform [(a, .formula (.literal (.number n)))]).value? a = some (.number n) :=
  value?_perform_first ha (fun _ hp => nomatch hp) (worth_literal ha (.number n))

/-- The numbers that a cell can hold after some history of edits are the finite ones, and those that
formulas may have as constants. -/
theorem holds_number_iff (e : Extent) (allowed : Float → Prop) (a : Address) (n : Float) :
    (∃ history : List (Address × Edit), (∀ x ∈ history, x.2.Uses allowed) ∧
      ((blank e).perform history).value? a = some (.number n)) ↔
      a ∈ e ∧ (n.isFinite = true ∨ allowed n) := by
  constructor
  · rintro ⟨history, uses, holds⟩
    have keeping : Keeping (Value.Within allowed) ((blank e).perform history) :=
      keeping_perform (keeping_blank (Value.madeOf_within.text _)) (fun n same => nomatch same)
        fun x hx => (uses x hx).brings
    have inside : a ∈ e := isSome_value?.mp (Option.isSome_iff_exists.mpr ⟨_, holds⟩)
    exact ⟨inside, keeping.values a _ holds n rfl⟩
  · rintro ⟨ha, finite | may⟩
    · refine ⟨[(a, .value (.number n))], ?_, ?_⟩
      · exact List.forall_mem_singleton.mpr trivial
      · exact value?_perform_first ha (fun _ hp => nomatch hp) (if_pos finite)
    · refine ⟨[(a, .formula (.literal (.number n)))], ?_, value?_literal ha n⟩
      refine List.forall_mem_singleton.mpr fun m hm => ?_
      obtain rfl := Value.number.inj (List.mem_singleton.mp hm)
      exact may

/-- A formula that is nothing but the infinite number makes a cell hold it. -/
theorem infinite_constant :
    let e : Extent := ⟨1, 1, by decide, by decide, by decide, by decide⟩
    let a : Address := ⟨0, 0⟩
    let infinity : Float := 1.0 / 0.0
    ((blank e).perform [(a, .formula (.literal (.number infinity)))]).value? a =
      some (.number infinity) ∧ infinity.isFinite = false :=
  ⟨value?_literal (by decide) _, by decide⟩

end Sheet

end ReactiveSheet
