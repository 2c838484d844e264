import ReactiveSheet.Proofs.Address.Rectangle
import ReactiveSheet.Proofs.Sheet.Progress

/-!
What a single edit does to the values of a sheet.

Seen from the values alone, a wave recomputes dirty cells one at a time: `Recomputes` collects what
it means for a property of the values and the dirty cells to outlast this, and `propagate_preserves`
says that such a property holds in the end, when nothing is dirty any more.

All kinds of edit rewire a cell, store a value in it and, if the value is another one, propagate.
`Edited` says what can be told of the sheet afterwards without looking at how it came about:
every cell with a formula is current, or it and its parents have the values that they had before.
Whether that is enough depends on the values; it is for the modules that follow to say.
-/

namespace ReactiveSheet

namespace Sheet

open Std (HashSet)
open Wave (Sound Refreshed)

variable {e : Extent} {s : Sheet e} {origin : Address}

/-- A property of the values and of which cells are dirty outlasts the recomputation of any dirty
cell downstream. -/
structure Recomputes (s : Sheet e) (origin : Address) (I : Sheet e → (Address → Prop) → Prop) :
    Prop where
  kept : ∀ {t dirty a f}, SameForm s t → a ∈ s.downstream origin → dirty a →
    s.formula? a = some f → (t.value? a == some (t.worth a f)) = true → I t dirty →
    I t fun c => dirty c ∧ c ≠ a
  changed : ∀ {t dirty a f}, SameForm s t → a ∈ s.downstream origin → dirty a →
    s.formula? a = some f → ¬ (t.value? a == some (t.worth a f)) = true → I t dirty →
    I (t.put a (t.worth a f)) fun c => dirty c ∧ c ≠ a ∨ a ∈ s.parents c

variable {I : Sheet e → (Address → Prop) → Prop}

theorem Recomputes.refresh (h : Recomputes s origin I) (hs : Linked s) {w v : Wave e} {a : Address}
    (sound : Sound s origin (some a) w) (hv : Refreshed w a v) (hw : I w.sheet (· ∈ w.dirty)) :
    I v.sheet (· ∈ v.dirty) := by
  have part : a ∈ s.downstream origin := sound.due_mem a (Or.inr rfl)
  have erased : (· ∈ w.dirty.erase a) = fun c => c ∈ w.dirty ∧ c ≠ a := by
    funext c
    exact propext Wave.mem_erase_iff
  cases hv with
  | clean _ => exact hw
  | kept dirty hf same r hr =>
    dsimp only
    rw [erased]
    exact h.kept sound.form part dirty (sound.form.formula ▸ hf) same hw
  | changed dirty hf other r hr marked =>
    have := h.changed sound.form part dirty (sound.form.formula ▸ hf) other hw
    rw [marked.sheet]
    convert this using 2 with c
    rw [marked.dirty, sound.mem_children hs]
    dsimp only
    rw [show (c ∈ w.dirty.erase a) = _ from congrFun erased c]

theorem Recomputes.step (h : Recomputes s origin I) (hs : Linked s) {w v : Wave e}
    (sound : Sound s origin none w) (hv : w.step = some v) (hw : I w.sheet (· ∈ w.dirty)) :
    I v.sheet (· ∈ v.dirty) := by
  cases Wave.stepped_of_step hv with
  | @turn a ready hready =>
    have popped := sound.pop hready
    obtain ⟨f, hf⟩ := popped.formula hs (popped.due_mem a (Or.inr rfl))
    have hv := Wave.refreshed_refresh hf
    have first := h.refresh hs popped hv hw
    obtain ⟨sound, -, -⟩ := popped.refresh hs hv
    by_cases done : a ∈ (({ w with ready } : Wave e).refresh a).done
    · rwa [Wave.finish_of_done done]
    · have counted := Wave.countedDown_finish (sound.linked hs) done
      rwa [counted.sheet, counted.dirty]
  | release idle ha others => exact hw

/-- What outlasts single recomputations holds after a propagation, when no cell is dirty but the
origin and cells behind a cycle that hold the cycle fault. -/
theorem propagate_preserves (h : Recomputes s origin I) (hs : Linked s) {r : Report}
    (new : ∀ c ∈ s.downstream origin, c ∉ r.changed) (start : I s (origin ∈ s.parents ·)) :
    ∃ dirty, I (s.propagate origin r).1 dirty ∧ ∀ c, dirty c →
      c = origin ∨ (s.Behind c ∧ (s.propagate origin r).1.value? c = some (.fault .cycle)) := by
  let w := Wave.start s origin r
  have sound : Sound s origin none w := Wave.sound_start hs new
  have dirty : (· ∈ w.dirty) = (origin ∈ s.parents ·) := by
    funext c
    rw [← hs.mem_children]
    exact propext (HashSet.mem_ofList.trans List.contains_iff_mem)
  have last : (w.run w.budget).step = none := sound.step_run hs (Wave.load_start_le s origin r)
  obtain ⟨sound', values⟩ := Wave.run_preserves
    (I := fun w => Sound s origin none w ∧ I w.sheet (· ∈ w.dirty))
    (fun w v ⟨sound, values⟩ hv => ⟨(sound.step hs hv).1, h.step hs sound hv values⟩)
    (n := w.budget) ⟨sound, dirty ▸ start⟩
  refine ⟨(· ∈ (w.run w.budget).dirty), values, ?_⟩
  intro c hc
  rcases sound'.dirty_mem c hc with same | part
  · exact Or.inl same
  · obtain ⟨done, notDue⟩ := sound'.done_of_step_eq_none last part
    exact Or.inr ((sound'.again c hc done).resolve_left notDue)

theorem sameForm_propagate (hs : Linked s) {r : Report}
    (new : ∀ c ∈ s.downstream origin, c ∉ r.changed) :
    SameForm s (s.propagate origin r).1 :=
  ((Wave.sound_start hs new).run hs _).form

/-- The cell and its parents hold the same in both sheets. -/
def Kept (s t : Sheet e) (c : Address) : Prop :=
  t.value? c = s.value? c ∧ ∀ p ∈ t.parents c, t.value? p = s.value? p

/-- Every cell that is not dirty is current, or as it was before the origin changed. -/
structure Faithful (before s : Sheet e) (origin : Address) (t : Sheet e) (dirty : Address → Prop) :
    Prop where
  form : SameForm s t
  frame : ∀ c, c ∉ s.downstream origin → t.value? c = s.value? c
  current : ∀ c f, c ≠ origin → s.formula? c = some f →
    dirty c ∨ t.Current c f ∨ Kept before t c

theorem Kept.put {before t : Sheet e} {a c : Address} {v : Value} (h : Kept before t c)
    (other : c ≠ a) (apart : a ∉ t.parents c) : Kept before (t.put a v) c := by
  constructor
  · exact (value?_put_of_ne t other v).trans h.1
  · intro p hp
    rw [(sameForm_put t a v).parents] at hp
    exact (value?_put_of_ne t (ne_of_mem_of_not_mem hp apart) v).trans (h.2 p hp)

theorem Current.put {t : Sheet e} {a c : Address} {f : Formula} {v : Value} (h : t.Current c f)
    (ht : Linked t) (hf : t.formula? c = some f) (other : c ≠ a) (apart : a ∉ t.parents c) :
    (t.put a v).Current c f :=
  h.congr ht (sameForm_put t a v) hf (value?_put_of_ne t other v) fun _ _ hp =>
    value?_put_of_ne t (ne_of_mem_of_not_mem hp apart) v

theorem faithful_recomputes (before : Sheet e) (hs : Linked s) :
    Recomputes s origin (Faithful before s origin) where
  kept {t dirty a f} form part _ hf same h := by
    refine { h with current := ?_ }
    intro c g hc hg
    by_cases own : c = a
    · subst own
      obtain rfl := Option.some.inj (hf.symm.trans hg)
      exact Or.inr (Or.inl (holds_of_beq same))
    · exact (h.current c g hc hg).imp_left fun k => ⟨k, own⟩
  changed {t dirty a f} form part _ hf other h := by
    have ht : Linked t := hs.of_sameForm form
    refine ⟨form.trans (sameForm_put _ _ _), ?_, ?_⟩
    · intro c hc
      exact (value?_put_of_ne t (ne_of_mem_of_not_mem part hc).symm _).trans (h.frame c hc)
    · intro c g hc hg
      by_cases own : c = a
      · subst own
        obtain rfl := Option.some.inj (hf.symm.trans hg)
        exact Or.inr (Or.inl (current_put ht (form.formula ▸ hf)))
      · by_cases link : a ∈ s.parents c
        · exact Or.inl (Or.inr link)
        · have apart : a ∉ t.parents c := form.parents ▸ link
          rcases h.current c g hc hg with k | current | kept
          · exact Or.inl (Or.inl ⟨k, own⟩)
          · exact Or.inr (Or.inl (current.put ht (form.formula ▸ hg) own apart))
          · exact Or.inr (Or.inr (kept.put own apart))

theorem faithful_propagate {before : Sheet e} (hs : Linked s) {r : Report}
    (new : ∀ c ∈ s.downstream origin, c ∉ r.changed)
    (others : ∀ c, c ≠ origin → s.value? c = before.value? c) :
    Faithful before s origin (s.propagate origin r).1 fun _ => False := by
  have start : Faithful before s origin s (origin ∈ s.parents ·) := by
    refine ⟨.refl s, fun _ _ => rfl, ?_⟩
    intro c f hc _
    by_cases link : origin ∈ s.parents c
    · exact Or.inl link
    · exact Or.inr (Or.inr ⟨others c hc, fun p hp => others p fun same => link (same ▸ hp)⟩)
  obtain ⟨dirty, faithful, clean⟩ :=
    propagate_preserves (faithful_recomputes before hs) hs new start
  refine { faithful with current := ?_ }
  intro c f hc hf
  rcases faithful.current c f hc hf with k | current
  · obtain ⟨behind, value⟩ := (clean c k).resolve_left hc
    have ht : Linked (s.propagate origin r).1 := hs.of_sameForm faithful.form
    exact Or.inr (Or.inl (current_of_behind ht ((faithful.form.behind_iff c).mpr behind) value))
  · exact Or.inr current

end Sheet

def Edit.formula? : Edit → Option Formula
  | .typed _ => none
  | .value _ => none
  | .formula f => some f

namespace Sheet

variable {e : Extent}

/-- The value that an edit puts into the cell, given the sheet with the new links. -/
def dueBy (s : Sheet e) (a : Address) : Edit → Value
  | .typed text => (Value.ofTyped text).storable
  | .value v => v.storable
  | .formula f => s.worth a f

theorem of_forM_check_bind {α : Type} {ps : List Address} {k : Unit → Except PlaceError α} {x : α}
    (h : (ps.forM e.check >>= k) = .ok x) : (∀ p ∈ ps, p ∈ e) ∧ k () = .ok x := by
  induction ps with
  | nil => exact ⟨fun p hp => absurd hp List.not_mem_nil, h⟩
  | cons p ps ih =>
    rw [List.forM_eq_forM, List.forM_cons, bind_assoc] at h
    obtain ⟨hp, h⟩ := e.of_check_bind h
    obtain ⟨rest, h⟩ := ih h
    exact ⟨List.forall_mem_cons.mpr ⟨hp, rest⟩, h⟩

theorem setValue_eq_follow {s : Sheet e} {a : Address} {v : Value} {x : Sheet e × Report}
    (h : s.setValue a v = .ok x) :
    a ∈ e ∧ follow a ((s.rewire a none).store a v.storable {}) = x := by
  obtain ⟨ha, h⟩ := e.of_check_bind h
  exact ⟨ha, Except.ok.inj h⟩

def noteBy (s : Sheet e) (a : Address) : Edit → Report
  | .typed _ => {}
  | .value _ => {}
  | .formula _ => s.noteCycle a {}

theorem changed_noteBy (s : Sheet e) (a : Address) (edit : Edit) :
    (s.noteBy a edit).changed = #[] := by
  cases edit with
  | typed text => rfl
  | value v => rfl
  | formula f => exact changed_noteCycle s a {}

theorem edit_eq_follow_noteBy {s : Sheet e} {a : Address} {edit : Edit} {x : Sheet e × Report}
    (h : s.edit a edit = .ok x) :
    a ∈ e ∧ (∀ p ∈ readBy edit.formula?, p ∈ e) ∧
      let u := s.rewire a edit.formula?
      follow a (u.store a (u.dueBy a edit) (u.noteBy a edit)) = x := by
  have nothing : ∀ p ∈ readBy none, p ∈ e := fun p hp => absurd hp List.not_mem_nil
  cases edit with
  | typed text =>
    obtain ⟨ha, h⟩ := setValue_eq_follow h
    exact ⟨ha, nothing, h⟩
  | value v =>
    obtain ⟨ha, h⟩ := setValue_eq_follow h
    exact ⟨ha, nothing, h⟩
  | formula f =>
    obtain ⟨ha, h⟩ := e.of_check_bind h
    obtain ⟨inside, h⟩ := of_forM_check_bind h
    refine ⟨ha, inside, ?_⟩
    rw [← Except.ok.inj h]
    exact congrArg (follow a) (settle_eq_store _ a f {}).symm

theorem edit_eq_follow {s : Sheet e} {a : Address} {edit : Edit} {x : Sheet e × Report}
    (h : s.edit a edit = .ok x) :
    a ∈ e ∧ (∀ p ∈ readBy edit.formula?, p ∈ e) ∧
      ∃ r : Report, r.changed = #[] ∧ follow a
        ((s.rewire a edit.formula?).store a ((s.rewire a edit.formula?).dueBy a edit) r) = x := by
  obtain ⟨ha, inside, h⟩ := edit_eq_follow_noteBy h
  exact ⟨ha, inside, _, changed_noteBy _ a edit, h⟩

theorem check_of_mem {a : Address} (ha : a ∈ e) : e.check a = .ok () := if_pos ha

theorem forM_check {ps : List Address} (inside : ∀ p ∈ ps, p ∈ e) : ps.forM e.check = .ok () := by
  induction ps with
  | nil => rfl
  | cons p ps ih =>
    obtain ⟨hp, rest⟩ := List.forall_mem_cons.mp inside
    rw [List.forM_eq_forM, List.forM_cons, check_of_mem hp]
    exact ih rest

theorem edit_of_inside (s : Sheet e) {a : Address} (edit : Edit) (ha : a ∈ e)
    (inside : ∀ p ∈ readBy edit.formula?, p ∈ e) : ∃ x, s.edit a edit = .ok x := by
  have set (v : Value) : ∃ x, s.setValue a v = .ok x := by
    rw [setValue, check_of_mem ha]
    exact ⟨_, rfl⟩
  cases edit with
  | typed text => exact set _
  | value v => exact set v
  | formula f =>
    simp only [Sheet.edit, setFormula]
    rw [check_of_mem ha, show f.references.forM e.check = .ok () from forM_check inside]
    exact ⟨_, rfl⟩

/-- What an edit comes to. -/
structure Edited (s : Sheet e) (a : Address) (edit : Edit) (t : Sheet e) : Prop where
  linked : Linked t
  formula : ∀ c, t.formula? c = if c = a then edit.formula? else s.formula? c
  target : t.Holds a (t.dueBy a edit)
  plain : ∀ c, c ≠ a → t.formula? c = none → t.value? c = s.value? c
  others : ∀ c f, c ≠ a → t.formula? c = some f → t.Current c f ∨ Kept s t c

theorem holds_store {s : Sheet e} {a : Address} {v : Value} (ha : a ∈ e) (r : Report) :
    (s.store a v r).1.Holds a v := by
  by_cases same : (s.value? a == some v) = true
  · rw [store_of_beq same]
    exact holds_of_beq same
  · rw [store_of_not_beq same]
    exact ⟨v, value?_put_self ha v, Or.inl rfl⟩

theorem sameForm_store (s : Sheet e) (a : Address) (v : Value) (r : Report) :
    SameForm s (s.store a v r).1 := by
  by_cases same : (s.value? a == some v) = true
  · rw [store_of_beq same]
    exact .refl s
  · rw [store_of_not_beq same]
    exact sameForm_put s a v

theorem value?_store_of_ne (s : Sheet e) {a c : Address} (h : c ≠ a) (v : Value) (r : Report) :
    (s.store a v r).1.value? c = s.value? c := by
  by_cases same : (s.value? a == some v) = true
  · rw [store_of_beq same]
  · rw [store_of_not_beq same]
    exact value?_put_of_ne s h v

theorem new_of_stored {s : Sheet e} (hs : Linked s) {a : Address} {r : Report}
    (hr : r.changed = #[]) : ∀ c ∈ s.downstream a, c ∉ r.changed.push a := by
  intro c hc k
  have only : c = a := by simpa [hr] using k
  exact ((mem_downstream hs).mp hc).1 only

theorem faithful_follow {s : Sheet e} (hs : Linked s) {a : Address} {v : Value} {r : Report}
    (hr : r.changed = #[]) :
    Faithful s (s.store a v r).1 a (follow a (s.store a v r)).1 fun _ => False := by
  by_cases same : (s.value? a == some v) = true
  · rw [store_of_beq same]
    exact ⟨.refl s, fun _ _ => rfl, fun c f _ _ => Or.inr (Or.inr ⟨rfl, fun _ _ => rfl⟩)⟩
  · rw [store_of_not_beq same]
    have linked : Linked (s.put a v) := hs.of_sameForm (sameForm_put s a v)
    exact faithful_propagate linked (new_of_stored linked hr) fun c hc => value?_put_of_ne s hc v

theorem value?_follow {s : Sheet e} (hs : Linked s) (a : Address) (v : Value) {r : Report}
    (hr : r.changed = #[]) :
    (follow a (s.store a v r)).1.value? a = (s.store a v r).1.value? a :=
  have linked : Linked (s.store a v r).1 := hs.of_sameForm (sameForm_store s a v r)
  (faithful_follow hs hr).frame a fun k => ((mem_downstream linked).mp k).1 rfl

theorem mem_downstream_of_formula_eq_none {s : Sheet e} (hs : Linked s) {a c : Address}
    (hc : s.formula? c = none) : c ∉ s.downstream a := by
  intro h
  obtain ⟨-, path⟩ := (mem_downstream hs).mp h
  obtain ⟨p, link, -⟩ := Relation.TransGen.head'_iff.mp path
  have none : s.parents c = [] := by
    rw [hs.parents_eq, hc]
    rfl
  exact List.not_mem_nil (none ▸ link : p ∈ [])

theorem edited {s t : Sheet e} {a : Address} {edit : Edit} {r : Report} (hs : Linked s)
    (h : s.edit a edit = .ok (t, r)) : Edited s a edit t := by
  obtain ⟨ha, inside, note, hnote, eq⟩ := edit_eq_follow h
  let u := s.rewire a edit.formula?
  have hu : Linked u := hs.rewire ha inside
  let v := u.dueBy a edit
  have stored : SameForm u (u.store a v note).1 := sameForm_store u a v note
  have faithful := faithful_follow hu (a := a) (v := v) hnote
  rw [show follow a (u.store a v note) = (t, r) from eq] at faithful
  dsimp only at faithful
  have form : SameForm u t := stored.trans faithful.form
  have values : u.value? = s.value? := value?_rewire hs ha inside
  have ht : Linked t := hu.of_sameForm form
  have origin : t.value? a = (u.store a v note).1.value? a := by
    rw [← value?_follow hu a v hnote, show follow a (u.store a v note) = (t, r) from eq]
  have own : t.Holds a v := by
    obtain ⟨w, hw, eq⟩ := holds_store (s := u) (v := v) ha note
    exact ⟨w, origin.trans hw, eq⟩
  constructor
  case linked =>
    exact ht
  case formula =>
    intro c
    rw [form.formula]
    exact formula?_rewire hs ha inside c
  case target =>
    -- away from cycles the parents of the target are not downstream of it
    have unmoved (off : ¬ u.Behind a) (p : Address) (hp : p ∈ u.parents a) :
        t.value? p = u.value? p := by
      have ne : p ≠ a := ne_of_mem_of_not_mem hp (not_mem_parents_self off)
      rw [faithful.frame p fun k => ?_, value?_store_of_ne u ne]
      obtain ⟨-, path⟩ := (mem_downstream (hu.of_sameForm stored)).mp k
      rw [DependsOn, stored.parents] at path
      exact off (DependsOn.behind (path.head hp))
    have due : t.dueBy a edit = v := by
      cases edit with
      | typed text => rfl
      | value v => rfl
      | formula f =>
        have hf : u.formula? a = some f :=
          (formula?_rewire hs ha inside a).trans (if_pos rfl)
        exact worth_congr hu form hf unmoved
    exact due ▸ own
  case plain =>
    intro c hc hf
    have apart := mem_downstream_of_formula_eq_none (a := a) (hu.of_sameForm stored)
      ((faithful.form.formula ▸ hf : (u.store a v note).1.formula? c = none))
    rw [faithful.frame c apart, value?_store_of_ne u hc, values]
  case others =>
    intro c f hc hf
    have hf' : (u.store a v note).1.formula? c = some f := faithful.form.formula ▸ hf
    rcases (faithful.current c f hc hf').resolve_left id with current | kept
    · exact Or.inl current
    · rw [Kept, values] at kept
      exact Or.inr kept

section Edited

variable {s t : Sheet e} {a c : Address} {edit : Edit}

theorem Edited.formula_target (h : Edited s a edit t) : t.formula? a = edit.formula? :=
  (h.formula a).trans (if_pos rfl)

theorem Edited.formula_of_ne (h : Edited s a edit t) (hc : c ≠ a) : t.formula? c = s.formula? c :=
  (h.formula c).trans (if_neg hc)

theorem Edited.parents_target (h : Edited s a edit t) : t.parents a = readBy edit.formula? := by
  rw [h.linked.parents_eq, h.formula_target]

theorem Edited.parents (h : Edited s a edit t) (hs : Linked s) (hc : c ≠ a) :
    t.parents c = s.parents c := by
  rw [h.linked.parents_eq, hs.parents_eq, h.formula_of_ne hc]

theorem Edited.of_formula {P : Formula → Prop} (h : Edited s a edit t)
    (old : ∀ f, s.formula? c = some f → P f) (new : ∀ f, edit = .formula f → P f) {f : Formula}
    (hf : t.formula? c = some f) : P f := by
  rw [h.formula] at hf
  split at hf
  · cases edit with
    | typed text => exact nomatch hf
    | value v => exact nomatch hf
    | formula g => exact new f (congrArg Edit.formula (Option.some.inj hf))
  · exact old f hf

theorem Edited.target_current {f : Formula} (h : Edited s a edit t) (hf : t.formula? a = some f) :
    t.Current a f := by
  have target := h.target
  rw [h.formula, if_pos rfl] at hf
  cases edit with
  | typed text => exact nomatch hf
  | value v => exact nomatch hf
  | formula g => exact Option.some.inj hf ▸ target

/-- A cell behind a cycle after an edit holds the cycle fault, unless it kept its value and the
values of its parents. -/
theorem Edited.eq_cycle_or_kept (h : Edited s a edit t) (behind : t.Behind c) :
    t.value? c = some (.fault .cycle) ∨ (c ≠ a ∧ Kept s t c) := by
  obtain ⟨f, hf⟩ := behind.formula h.linked
  by_cases target : c = a
  · subst target
    exact Or.inl ((h.target_current hf).of_behind h.linked behind)
  · exact (h.others c f target hf).imp (·.of_behind h.linked behind) fun kept => ⟨target, kept⟩

end Edited

end Sheet

end ReactiveSheet
