import ReactiveSheet.Proofs.Sheet.History

/-!
When the cells behind cycles hold the cycle fault, whatever values and formulas are put in.

An edit propagates only if the value of its target changes, and a dependent is looked at again only
if a parent of it has changed. So a cell that comes to be behind a cycle is told of it only along
cells that did not hold the cycle fault before, be it as a value or for some other reason. `Swept`
are the cells that are told. A sheet stays safe just when every cell that is behind a cycle held the
fault already or is swept: `safe_iff_clear` for one edit and `always_safe_iff` for histories.
-/

namespace ReactiveSheet.Sheet

variable {e : Extent} {s t : Sheet e} {a c : Address} {edit : Edit}

def Safe (s : Sheet e) : Prop :=
  ∀ c f, s.formula? c = some f → s.Behind c → s.value? c = some (.fault .cycle)

/-- What an edit at `a` reaches by the links of the sheet `t` after it, over cells that did not
hold the cycle fault in the sheet `s` before it. -/
inductive Swept (s t : Sheet e) (a : Address) : Address → Prop where
  | target (free : s.value? a ≠ some (.fault .cycle)) : Swept s t a a
  | child {p c : Address} (parent : Swept s t a p) (link : p ∈ t.parents c)
    (free : s.value? c ≠ some (.fault .cycle)) : Swept s t a c

/-- Every cell that is behind a cycle after an edit held the cycle fault before or is swept. -/
def Clear (s t : Sheet e) (a : Address) : Prop :=
  ∀ c, t.Behind c → s.value? c = some (.fault .cycle) ∨ Swept s t a c

theorem Swept.free (h : Swept s t a c) : s.value? c ≠ some (.fault .cycle) := by
  cases h with
  | target free => exact free
  | child _ _ free => exact free

theorem Swept.congr {u : Sheet e} (h : Swept s t a c) (same : u.parents = t.parents) :
    Swept s u a c := by
  induction h with
  | target free => exact .target free
  | child _ link free ih => exact .child ih (same ▸ link) free

theorem Safe.eq_cycle (h : Safe s) (hs : Linked s) (behind : s.Behind c) :
    s.value? c = some (.fault .cycle) := by
  obtain ⟨f, hf⟩ := behind.formula hs
  exact h c f hf behind

structure Sweeping (before s : Sheet e) (a : Address) (t : Sheet e) (dirty : Address → Prop) :
    Prop where
  told : ∀ c, dirty c → ∃ p ∈ s.parents c, Swept before s a p
  values : ∀ c, t.value? c = before.value? c ∨
    (t.value? c = some (.fault .cycle) ∧ Swept before s a c)

theorem sweeping_recomputes (before : Sheet e) (hs : Linked s) (behind : s.Behind a) :
    Recomputes s a (Sweeping before s a) where
  kept _ _ _ _ _ h := { h with told := fun c k => h.told c k.1 }
  changed {t dirty x f} form part stale hf other h := by
    have behind' : t.Behind x :=
      (form.behind_iff x).mpr (behind.of_dependsOn ((mem_downstream hs).mp part).2)
    rw [worth_of_behind (hs.of_sameForm form) behind'] at other ⊢
    have inside : x ∈ e := mem_of_formula hf
    -- the cell changes to the fault, so it has not changed before
    have new : t.value? x ≠ some (.fault .cycle) := fun k => other (by rw [k]; rfl)
    have old : t.value? x = before.value? x := (h.values x).resolve_right fun k => new k.1
    obtain ⟨p, link, swept⟩ := h.told x stale
    have here : Swept before s a x := .child swept link (old ▸ new)
    constructor
    · intro c k
      rcases k with ⟨k, _⟩ | link
      · exact h.told c k
      · exact ⟨x, link, here⟩
    · intro c
      by_cases same : c = x
      · subst same
        exact Or.inr ⟨value?_put_self inside _, here⟩
      · rw [value?_put_of_ne t same]
        exact h.values c

theorem dueBy_of_behind (hs : Linked s) (hf : s.formula? a = edit.formula?) (behind : s.Behind a) :
    s.dueBy a edit = .fault .cycle := by
  obtain ⟨f, hf'⟩ := behind.formula hs
  rw [hf'] at hf
  cases edit with
  | typed text => exact nomatch hf
  | value v => exact nomatch hf
  | formula g => exact worth_of_behind hs behind

/-- If its target comes to be behind a cycle, an edit changes swept cells only. -/
theorem value?_or_swept {r : Report} (hs : Linked s) (h : s.edit a edit = .ok (t, r))
    (behind : t.Behind a) (c : Address) : t.value? c = s.value? c ∨ Swept s t a c := by
  obtain ⟨ha, inside, note, hnote, eq⟩ := edit_eq_follow h
  let u := s.rewire a edit.formula?
  have hu : Linked u := hs.rewire ha inside
  have values : u.value? = s.value? := value?_rewire hs ha inside
  change follow a (u.store a (u.dueBy a edit) note) = (t, r) at eq
  by_cases same : (u.value? a == some (u.dueBy a edit)) = true
  · rw [store_of_beq same] at eq
    obtain ⟨rfl, -⟩ := Prod.mk.inj eq
    exact Or.inl (congrFun values c)
  · rw [store_of_not_beq same] at eq
    let stored := u.put a (u.dueBy a edit)
    let note' : Report := { note with changed := note.changed.push a }
    have form : SameForm u stored := sameForm_put u a _
    have linked : Linked stored := hu.of_sameForm form
    have new : ∀ c ∈ stored.downstream a, c ∉ note'.changed := fun c hc k => by
      have only : c = a := by simpa [note', hnote] using k
      exact ((mem_downstream linked).mp hc).1 only
    have out : (stored.propagate a note').1 = t := congrArg Prod.fst eq
    have later : SameForm stored t := out ▸ sameForm_propagate linked new
    have behind' : stored.Behind a := (later.behind_iff a).mp behind
    have due : u.dueBy a edit = .fault .cycle :=
      dueBy_of_behind hu ((formula?_rewire hs ha inside a).trans (if_pos rfl))
        ((form.behind_iff a).mp behind')
    have free : s.value? a ≠ some (.fault .cycle) := fun k =>
      same (by rw [values, k, due]; rfl)
    have start : Sweeping s stored a stored (a ∈ stored.parents ·) := by
      refine ⟨fun c link => ⟨a, link, .target free⟩, ?_⟩
      intro c
      by_cases target : c = a
      · subst target
        exact Or.inr ⟨(value?_put_self ha _).trans (congrArg some due), .target free⟩
      · exact Or.inl ((value?_put_of_ne u target _).trans (congrFun values c))
    obtain ⟨dirty, sweeping, -⟩ :=
      propagate_preserves (sweeping_recomputes s linked behind') linked new start
    rw [out] at sweeping
    exact (sweeping.values c).imp_right fun k => k.2.congr later.parents

theorem Edited.behind_before (h : Edited s a edit t) (hs : Linked s) (off : ¬ t.Behind a)
    (behind : t.Behind c) : s.Behind c := by
  refine behind_of_endless (S := t.Behind) ?_ behind
  intro c k
  obtain ⟨p, link, kp⟩ := behind_iff.mp k
  have target : c ≠ a := fun same => off (same ▸ k)
  exact ⟨p, h.parents hs target ▸ link, kp⟩

theorem Edited.eq_cycle_of_eq_cycle (h : Edited s a edit t) (behind : t.Behind c)
    (before : s.value? c = some (.fault .cycle)) : t.value? c = some (.fault .cycle) :=
  (h.eq_cycle_or_kept behind).elim id fun ⟨_, kept⟩ => kept.1.trans before

theorem Edited.eq_cycle_of_swept (h : Edited s a edit t) (behind : t.Behind a)
    (swept : Swept s t a c) : t.Behind c ∧ t.value? c = some (.fault .cycle) := by
  induction swept with
  | target free => exact ⟨behind, (h.eq_cycle_or_kept behind).resolve_right fun k => k.1 rfl⟩
  | @child p c parent link free ih =>
    have here : t.Behind c := ih.1.of_parent link
    refine ⟨here, (h.eq_cycle_or_kept here).resolve_right ?_⟩
    rintro ⟨_, kept⟩
    exact parent.free ((kept.2 p link).symm.trans ih.2)

/-- A safe sheet stays safe under an edit just when the edit is clear. -/
theorem safe_iff_clear {r : Report} (hs : Linked s) (safe : Safe s)
    (h : s.edit a edit = .ok (t, r)) : Safe t ↔ Clear s t a := by
  have done := edited hs h
  constructor
  · intro safe' c behind
    have value := safe'.eq_cycle done.linked behind
    by_cases target : t.Behind a
    · exact (value?_or_swept hs h target c).imp_left fun kept => kept.symm.trans value
    · exact Or.inl (safe.eq_cycle hs (done.behind_before hs target behind))
  · intro clear c f _ behind
    by_cases target : t.Behind a
    · rcases clear c behind with before | swept
      · exact done.eq_cycle_of_eq_cycle behind before
      · exact (done.eq_cycle_of_swept target swept).2
    · exact done.eq_cycle_of_eq_cycle behind
        (safe.eq_cycle hs (done.behind_before hs target behind))

theorem safe_blank : Safe (blank e) := fun c f hf => by simp at hf

theorem perform_concat {s t : Sheet e} {history : List (Address × Edit)} {r : Report}
    (h : (s.perform history).edit a edit = .ok (t, r)) :
    s.perform (history ++ [(a, edit)]) = t := by
  rw [perform_append, perform, h]
  rfl

theorem perform_concat_of_error {s : Sheet e} {history : List (Address × Edit)}
    {cause : PlaceError} (h : (s.perform history).edit a edit = .error cause) :
    s.perform (history ++ [(a, edit)]) = s.perform history := by
  rw [perform_append, perform, h]
  rfl

/-- All sheets of a history are safe just when all its edits are clear, whatever values and
formulas they put in. -/
theorem always_safe_iff (e : Extent) (history : List (Address × Edit)) :
    (∀ before later, history = before ++ later → Safe ((blank e).perform before)) ↔
      ∀ before a edit later t r, history = before ++ (a, edit) :: later →
        ((blank e).perform before).edit a edit = .ok (t, r) →
          Clear ((blank e).perform before) t a := by
  have linked (before : List (Address × Edit)) : Linked ((blank e).perform before) :=
    linked_perform linked_blank before
  constructor
  · intro safe before a edit later t r split h
    have here : Safe ((blank e).perform before) := safe before _ split
    have next : Safe ((blank e).perform (before ++ [(a, edit)])) := safe _ later (by simp [split])
    rw [perform_concat h] at next
    exact (safe_iff_clear (linked before) here h).mp next
  · intro clear before
    induction before using List.reverseRecOn with
    | nil => exact fun _ _ => safe_blank
    | append_singleton before x ih =>
      obtain ⟨a, edit⟩ := x
      intro later split
      rw [List.append_assoc, List.singleton_append] at split
      have here := ih _ split
      cases h : ((blank e).perform before).edit a edit with
      | error cause =>
        rw [perform_concat_of_error h]
        exact here
      | ok x =>
        obtain ⟨t, r⟩ := x
        rw [perform_concat h]
        exact (safe_iff_clear (linked before) here h).mpr (clear before a edit later t r split h)

theorem Swept.target_free (h : Swept s t a c) : s.value? a ≠ some (.fault .cycle) := by
  induction h with
  | target free => exact free
  | child _ _ _ ih => exact ih

/-- The fault is put into a cell as a value, a second cell is made to read it, and then the first
one to read itself. It holds the fault already, so the second one is not told. -/
theorem hidden_cycle :
    let e : Extent := ⟨1, 2, by decide, by decide, by decide, by decide⟩
    let a : Address := ⟨0, 0⟩
    let b : Address := ⟨0, 1⟩
    ¬ Safe ((blank e).perform [(a, .value (.fault .cycle)),
      (b, .formula (.chain (.reference a) .plus (.literal (.number 1)) [])),
      (a, .formula (.reference a))]) := by
  intro e a b
  have ha : a ∈ e := by decide
  have hb : b ∈ e := by decide
  let sum : Formula := .chain (.reference a) .plus (.literal (.number 1)) []
  obtain ⟨s, -, -, first, go₁⟩ := exists_edited linked_blank (.value (.fault .cycle)) ha
    fun p hp => absurd hp List.not_mem_nil
  obtain ⟨t, -, -, second, go₂⟩ := exists_edited first.linked (.formula sum) hb
    fun p hp => (List.mem_singleton.mp hp : p = a) ▸ ha
  obtain ⟨u, r, h, third, go₃⟩ := exists_edited second.linked (.formula (.reference a)) ha
    fun p hp => List.mem_singleton.mp hp ▸ ha
  rw [(go₁ _).trans ((go₂ _).trans (go₃ _))]
  have ne : a ≠ b := by decide
  -- before the last edit the first cell holds the fault, and the second one shows another
  have plain : t.formula? a = none :=
    (second.formula_of_ne ne).trans first.formula_target
  have fault : t.value? a = some (.fault .cycle) :=
    (second.plain a ne plain).trans (holds_fault.mp first.target)
  have reader : t.formula? b = some sum := second.formula_target
  have only {c : Address} {f : Formula} (hf : t.formula? c = some f) : c = b := by
    by_contra other
    rw [second.formula, if_neg other, first.formula] at hf
    split at hf
    · exact Option.some_ne_none f hf.symm
    · exact Option.some_ne_none f (hf.symm.trans (formula?_blank c))
  have off : ¬ t.Behind b := by
    rw [not_behind_iff, second.linked.parents_of_formula reader]
    exact List.forall_mem_singleton.mpr (not_behind_of_formula_eq_none second.linked plain)
  have shown : t.value? b = some (.fault .invalidOperand) := by
    refine holds_fault.mp ?_
    have current := second.target_current reader
    rw [Current, worth_of_not_behind second.linked off] at current
    have worth : sum.evaluate t.value? = .fault .invalidOperand := by
      simp only [sum, Formula.evaluate, Formula.outcome, Formula.cellValue, fault]
      rfl
    exact worth ▸ current
  -- after it both are behind a cycle
  have loop : a ∈ u.parents a := third.parents_target ▸ List.mem_singleton_self a
  have link : a ∈ u.parents b := by
    rw [third.parents second.linked ne.symm, second.parents_target]
    exact List.mem_singleton_self a
  have behind : u.Behind b := Behind.of_parent (DependsOn.behind (.single loop)) link
  intro safe
  have before : Safe t := fun c _ hf k => absurd (only hf ▸ k) off
  rcases (safe_iff_clear second.linked before h).mp safe b behind with value | swept
  · rw [shown] at value
    exact Fault.noConfusion (Value.fault.inj (Option.some.inj value))
  · exact swept.target_free fault

end ReactiveSheet.Sheet
