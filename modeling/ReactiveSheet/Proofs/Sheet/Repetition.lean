import ReactiveSheet.Proofs.Sheet.Statistics

/-!
An edit that has just been made changes nothing when it is made again.

The formula and the links that it asks for are there, so there is nothing to rewire. The value that
is due is the one that was due before: away from cycles no parent of the target depends on the
target, so the wave has not touched what the formula reads, and behind a cycle the value is the
cycle fault both times. The target holds this value, and as the value equals itself, it is not
stored again and no wave is sent.
-/

namespace ReactiveSheet.Sheet

variable {e : Extent} {s t : Sheet e} {a p : Address} {edit : Edit} {r : Report}

theorem modify_eq_self {g : Cell → Cell} (same : ∀ c, s.cell? a = some c → g c = c) :
    s.modify a g = s := by
  unfold modify
  split
  · rename_i ha
    rw [same _ (cell?_of_mem ha)]
    exact congrArg Sheet.mk (Vector.set_getElem_self _)
  · rfl

theorem relink_parents (s : Sheet e) (a : Address) : s.relink a (s.parents a) = s := by
  have none : (s.parents a).filter (· ∉ s.parents a) = [] :=
    List.filter_eq_nil_iff.mpr fun p hp => by simpa using hp
  simp only [relink, none, List.foldl_nil, ite_self]

theorem rewire_formula? (hs : Linked s) (a : Address) : s.rewire a (s.formula? a) = s := by
  rw [rewire, ← hs.parents_eq, relink_parents]
  refine modify_eq_self fun c hc => ?_
  rw [formula?, hc]
  rfl

/-- What the target reads is as before the edit, unless a cycle can be reached from the target. -/
theorem value?_parent_edit (hs : Linked s) (h : s.edit a edit = .ok (t, r)) (off : ¬ t.Behind a)
    (link : p ∈ t.parents a) : t.value? p = s.value? p := by
  have other : p ≠ a := ne_of_mem_of_not_mem link (not_mem_parents_self off)
  refine value?_edit hs h other fun path => ?_
  exact off (DependsOn.behind (path.head link))

theorem isNaN_dueBy (hs : Linked s) (values : ∀ c v, s.value? c = some v → v.isNaN = false)
    (constants : ∀ f, edit.formula? = some f → ∀ v ∈ f.literals, v.isNaN = false)
    (h : s.edit a edit = .ok (t, r)) : (t.dueBy a edit).isNaN = false := by
  have done := edited hs h
  cases edit with
  | typed text => exact Value.isNaN_storable _
  | value v => exact Value.isNaN_storable v
  | formula f =>
    by_cases behind : t.Behind a
    · rw [dueBy, worth_of_behind done.linked behind]
      rfl
    · rw [dueBy, worth_of_not_behind done.linked behind]
      apply Formula.evaluate_of Value.madeOf_not_isNaN.closed (constants f rfl)
      intro p hp v hv
      have link : p ∈ t.parents a := by
        rw [done.parents_target]
        exact hp
      rw [value?_parent_edit hs h behind link] at hv
      exact values p v hv

theorem Holds.beq {c : Address} {v : Value} (h : s.Holds c v) (number : v.isNaN = false) :
    (s.value? c == some v) = true := by
  obtain ⟨w, hw, alike⟩ := h.alike
  rw [hw]
  exact alike.beq (alike.isNaN.trans number)

theorem edit_of_present (hs : Linked s) (ha : a ∈ e) (formula : s.formula? a = edit.formula?)
    (value : (s.value? a == some (s.dueBy a edit)) = true) :
    s.edit a edit = .ok (s, s.noteBy a edit) := by
  have inside : ∀ p ∈ readBy edit.formula?, p ∈ e := by
    rw [← formula, ← hs.parents_eq]
    exact hs.inside a
  obtain ⟨x, h⟩ := edit_of_inside s edit ha inside
  obtain ⟨-, -, eq⟩ := edit_eq_follow_noteBy h
  dsimp only at eq
  rw [← formula, rewire_formula? hs, store_of_beq value] at eq
  rw [h, ← eq]
  rfl

/-- After any history that leaves no cell with the number that is no number, an edit that succeeds
and brings in no such constant succeeds again at once. The second time it changes and recomputes no
cell, and the sheet is the same as before in all its values, formulas and links. -/
theorem edit_made_again (e : Extent) (history : List (Address × Edit))
    (values : ∀ c v, ((blank e).perform history).value? c = some v → v.isNaN = false)
    {a : Address} {edit : Edit}
    (constants : ∀ f, edit.formula? = some f → ∀ v ∈ f.literals, v.isNaN = false)
    {t : Sheet e} {r : Report} (h : ((blank e).perform history).edit a edit = .ok (t, r)) :
    ∃ r', t.edit a edit = .ok (t, r') ∧ r'.changed = #[] ∧ r'.recomputed = #[] := by
  have linked : Linked ((blank e).perform history) := linked_perform linked_blank history
  have done := edited linked h
  obtain ⟨ha, -⟩ := edit_eq_follow h
  have value := done.target.beq (isNaN_dueBy linked values constants h)
  exact ⟨_, edit_of_present done.linked ha done.formula_target value, changed_noteBy t a edit,
    recomputed_noteBy t a edit⟩

/-- Two cells are made to refer to each other, and the edit that closes the cycle is made again. -/
theorem edit_made_again_cycle :
    let e : Extent := ⟨1, 2, by decide, by decide, by decide, by decide⟩
    let a : Address := ⟨0, 0⟩
    let b : Address := ⟨0, 1⟩
    let opening : Edit := .formula (.reference a)
    let closing : Edit := .formula (.reference b)
    ∃ t r r', ((blank e).perform [(b, opening)]).edit a closing = .ok (t, r) ∧
      t.value? a = some (.fault .cycle) ∧
      t.edit a closing = .ok (t, r') ∧ r'.changed = #[] ∧ r'.recomputed = #[] := by
  intro e a b opening closing
  have inside {p : Address} (hp : p ∈ e) : ∀ q ∈ readBy (some (.reference p)), q ∈ e :=
    fun q hq => List.mem_singleton.mp hq ▸ hp
  have ha : a ∈ e := by decide
  have hb : b ∈ e := by decide
  let s : Sheet e := (blank e).perform [(b, opening)]
  have clean : ∀ x ∈ [(b, opening)], x.2.CycleFree ∧ x.2.NaNFree := by
    simp [opening, Edit.CycleFree, Edit.NaNFree, Formula.literals]
  have settled : Settled s := settled_perform fun x hx => (clean x hx).1
  have proper : Proper s := proper_perform fun x hx => (clean x hx).2
  have constants (f : Formula) (hf : closing.formula? = some f) :
      ∀ v ∈ f.literals, v.isNaN = false := by
    obtain rfl := Option.some.inj hf
    simp [Formula.literals]
  obtain ⟨u, -, -, opened, go⟩ := exists_edited linked_blank opening hb (inside ha)
  have same : s = u := go _
  obtain ⟨t, r, h, closed, -⟩ := exists_edited settled.linked closing ha (inside hb)
  obtain ⟨r', again, still⟩ := edit_made_again e [(b, opening)] (settled.not_isNaN proper)
    constants h
  have there : b ∈ t.parents a := closed.parents_target ▸ List.mem_singleton_self b
  have back : a ∈ t.parents b := by
    rw [closed.parents settled.linked (by decide), same, opened.parents_target]
    exact List.mem_singleton_self a
  have behind : t.Behind a := DependsOn.behind (.head there (.single back))
  have value := (closed.target_current closed.formula_target).of_behind closed.linked behind
  exact ⟨t, r, r', h, value, again, still⟩

end ReactiveSheet.Sheet
