import ReactiveSheet.Proofs.Sheet.Recomputed
import ReactiveSheet.Proofs.Sheet.Settled

/-!
The report of an edit says exactly what has happened, and propagation always ends.

The changed cells are those that hold another value than before. The recomputed cells are the
children of the changed ones, without the target, and the cells noted as lying behind a cycle are
those among them that do, and the target if it has been given a formula. `Recorded` says this of a
wave between steps, where a child of a changed cell may be dirty still.

Whatever the values, the formulas and the cycles, the wave of an edit stops of its own accord within
its budget, and no counter is counted down that stands at zero.
-/

namespace ReactiveSheet

namespace Wave

open Std (HashMap HashSet)
open Sheet (Linked downstream_of_parent)

variable {e : Extent} {s : Sheet e} {origin a c : Address} {w u : Wave e} {first : Array Address}

structure Recorded (s : Sheet e) (origin : Address) (first : Array Address) (w : Wave e) : Prop
    where
  distinct : w.report.changed.toList.Nodup
  target : origin ∈ w.report.changed
  part : ∀ p ∈ w.report.changed, p = origin ∨ p ∈ s.downstream origin
  differs : ∀ c ∈ w.report.changed, c ≠ origin → ¬ (s.value? c == w.sheet.value? c) = true
  same : ∀ c, c ∉ w.report.changed ∨ c = origin → w.sheet.value? c = s.value? c
  told : ∀ p ∈ w.report.changed, ∀ c, p ∈ s.parents c → c ∈ w.report.recomputed ∨ c ∈ w.dirty
  again : ∀ c ∈ w.dirty, c ∈ w.done → c ∈ w.ready ∨ c ∈ w.report.recomputed
  cycles : ∀ c, c ∈ w.report.cycles ↔ c ∈ first ∨ (c ∈ w.report.recomputed ∧ s.Behind c)

theorem Recorded.cycles_noted (recorded : Recorded s origin first w) (noted : Noted s a w u)
    (c : Address) :
    c ∈ u.report.cycles ↔ c ∈ first ∨ (c ∈ u.report.recomputed ∧ s.Behind c) := by
  rw [noted.cycles, noted.recomputed, Array.mem_push, recorded.cycles, or_assoc]
  refine or_congr_right ?_
  rw [or_and_right]
  exact or_congr_right ⟨fun ⟨same, behind⟩ => ⟨same, same ▸ behind⟩,
    fun ⟨same, behind⟩ => ⟨same, same ▸ behind⟩⟩

theorem stale_or_recomputed (noted : Noted s a w u)
    (dirty : ∀ c, c ∈ w.dirty → c ≠ a → c ∈ u.dirty)
    (h : c ∈ w.report.recomputed ∨ c ∈ w.dirty) : c ∈ u.report.recomputed ∨ c ∈ u.dirty := by
  rw [noted.recomputed, Array.mem_push]
  rcases h with done | stale
  · exact Or.inl (Or.inl done)
  · by_cases same : c = a
    · exact Or.inl (Or.inr same)
    · exact Or.inr (dirty c stale same)

theorem Recorded.still_again (recorded : Recorded s origin first w)
    (turned : Turned s origin w a u) (stale : c ∈ w.dirty) (other : c ≠ a) (done : c ∈ u.done)
    (kept : ∀ c ∈ w.report.recomputed, c ∈ u.report.recomputed) :
    c ∈ u.ready ∨ c ∈ u.report.recomputed := by
  have before : c ∈ w.done := ((turned.done c).mp done).resolve_left other
  exact (recorded.again c stale before).imp
    (fun ready => (turned.still c ready).resolve_left other) (kept c)

theorem Recorded.of_unchanged (recorded : Recorded s origin first w) (sheet : u.sheet = w.sheet)
    (changed : u.report.changed = w.report.changed)
    (told : ∀ c, c ∈ w.report.recomputed ∨ c ∈ w.dirty → c ∈ u.report.recomputed ∨ c ∈ u.dirty)
    (again : ∀ c ∈ u.dirty, c ∈ u.done → c ∈ u.ready ∨ c ∈ u.report.recomputed)
    (cycles : ∀ c, c ∈ u.report.cycles ↔ c ∈ first ∨ (c ∈ u.report.recomputed ∧ s.Behind c)) :
    Recorded s origin first u where
  distinct := changed ▸ recorded.distinct
  target := changed ▸ recorded.target
  part := changed ▸ recorded.part
  differs := by
    rw [changed, sheet]
    exact recorded.differs
  same := by
    rw [changed, sheet]
    exact recorded.same
  told p hp c link := told c (recorded.told p (changed ▸ hp) c link)
  again := again
  cycles := cycles

theorem Recorded.turn (recorded : Recorded s origin first w) (hs : Linked s)
    (turned : Turned s origin w a u) : Recorded s origin first u := by
  have target : a ≠ origin := ((Sheet.mem_downstream hs).mp turned.part).1
  cases turned.effect with
  | clean clean sheet report dirty =>
    apply recorded.of_unchanged sheet (congrArg Report.changed report)
    case told =>
      intro c hc
      rw [report]
      exact hc.imp_right (dirty c).mpr
    case again =>
      intro c hc done
      have stale := (dirty c).mp hc
      have other : c ≠ a := fun same => clean (same ▸ stale)
      exact recorded.still_again turned stale other done fun c k => report ▸ k
    case cycles =>
      exact report ▸ recorded.cycles
  | kept stale sheet noted changed dirty =>
    apply recorded.of_unchanged sheet changed
    case told =>
      exact fun c => stale_or_recomputed noted fun c k other => (dirty c).mpr ⟨k, other⟩
    case again =>
      intro c hc done
      obtain ⟨stale, other⟩ := (dirty c).mp hc
      exact recorded.still_again turned stale other done fun c hc =>
        noted.recomputed ▸ Array.mem_push_of_mem a hc
    case cycles =>
      exact recorded.cycles_noted noted
  | @changed f stale formula new other sheet noted changed dirty again =>
    have old (c : Address) (hc : c ∈ w.report.recomputed) : c ∈ u.report.recomputed :=
      noted.recomputed ▸ Array.mem_push_of_mem a hc
    have unmoved {c : Address} (hc : c ≠ a) : u.sheet.value? c = w.sheet.value? c := by
      rw [sheet]
      exact Sheet.value?_put_of_ne _ hc _
    constructor
    case distinct =>
      rw [changed, Array.toList_push]
      refine recorded.distinct.append (List.nodup_singleton a) ?_
      intro c hc k
      exact new (List.mem_singleton.mp k ▸ Array.mem_toList_iff.mp hc)
    case target =>
      exact changed ▸ Array.mem_push_of_mem a recorded.target
    case part =>
      intro p hp
      rw [changed, Array.mem_push] at hp
      exact hp.elim (recorded.part p) fun same => Or.inr (same ▸ turned.part)
    case differs =>
      intro c hc ne
      by_cases same : c = a
      · subst same
        rw [sheet, Sheet.value?_put_self (Sheet.mem_of_formula formula),
          ← recorded.same c (Or.inl new)]
        exact other
      · rw [changed, Array.mem_push] at hc
        rw [unmoved same]
        exact recorded.differs c (hc.resolve_right same) ne
    case same =>
      intro c hc
      have ne : c ≠ a := by
        rintro rfl
        exact hc.elim (fun k => k (changed ▸ Array.mem_push_self)) target
      rw [unmoved ne]
      exact recorded.same c (hc.imp_left (mt fun k => changed ▸ Array.mem_push_of_mem a k))
    case told =>
      intro p hp c link
      rw [changed, Array.mem_push] at hp
      rcases hp with hp | rfl
      · exact stale_or_recomputed noted (fun c k ne => (dirty c).mpr (Or.inl ⟨k, ne⟩))
          (recorded.told p hp c link)
      · exact Or.inr ((dirty c).mpr (Or.inr link))
    case again =>
      -- a child that has had its turn is put back among the ready cells when it becomes dirty
      intro c hc done
      by_cases same : c = a
      · exact Or.inr (noted.recomputed ▸ same ▸ Array.mem_push_self)
      · by_cases before : c ∈ w.dirty
        · exact recorded.still_again turned before same done old
        · have link := ((dirty c).mp hc).resolve_left fun k => before k.1
          exact Or.inl (again c link before (((turned.done c).mp done).resolve_left same))
    case cycles =>
      exact recorded.cycles_noted noted

theorem recorded_start (hs : Linked s) {r : Report} (fresh : r.recomputed = #[])
    (changed : r.changed = #[origin]) : Recorded s origin r.cycles (start s origin r) := by
  have only {c : Address} : c ∈ r.changed ↔ c = origin := by rw [changed, Array.mem_singleton]
  constructor
  case distinct =>
    change r.changed.toList.Nodup
    rw [changed]
    exact List.nodup_singleton origin
  case target =>
    exact only.mpr rfl
  case part =>
    exact fun p hp => Or.inl (only.mp hp)
  case differs =>
    exact fun c hc ne => absurd (only.mp hc) ne
  case same =>
    exact fun c _ => rfl
  case told =>
    intro p hp c link
    rw [only.mp hp, ← hs.mem_children] at link
    exact Or.inr (HashSet.mem_ofList.mpr (List.contains_iff_mem.mpr link))
  case again =>
    intro c _ hc
    exact absurd hc HashSet.not_mem_empty
  case cycles =>
    intro c
    change c ∈ r.cycles ↔ c ∈ r.cycles ∨ (c ∈ r.recomputed ∧ s.Behind c)
    rw [fresh]
    simp

theorem Recorded.run (recorded : Recorded s origin first w) (sound : Sound s origin none w)
    (hs : Linked s) (n : Nat) : Recorded s origin first (w.run n) := by
  refine sound.run_lasting hs recorded
    (fun _ _ _ _ turned recorded => recorded.turn hs turned) ?_ n
  intro w a held _ idle _ recorded
  refine { recorded with again := fun c hc done => Or.inr ?_ }
  exact (recorded.again c hc done).resolve_left fun ready => List.not_mem_nil (idle ▸ ready)

/-- When no step is left, the recomputed cells are the children of those that have changed. -/
theorem Recorded.mem_recomputed (recorded : Recorded s origin first w) (counted : Counted s w)
    (sound : Sound s origin none w) (hs : Linked s) (last : w.step = none) (c : Address) :
    c ∈ w.report.recomputed ↔ c ≠ origin ∧ ∃ p ∈ w.report.changed, p ∈ s.parents c := by
  constructor
  · intro hc
    refine ⟨((Sheet.mem_downstream hs).mp (sound.done_mem c (counted.visited c hc))).1, ?_⟩
    have paid := counted.paid c
    have some : 0 < changedParents s w.report.changed c := by
      have := Array.count_pos_iff.mpr hc
      omega
    obtain ⟨p, link, hp⟩ := List.countP_pos_iff.mp some
    exact ⟨p, Array.contains_iff_mem.mp hp, link⟩
  · rintro ⟨ne, p, hp, link⟩
    refine (recorded.told p hp c link).elim id fun stale => ?_
    have part := downstream_of_parent hs (recorded.part p hp) link ne
    obtain ⟨done, notDue⟩ := sound.done_of_step_eq_none last part
    exact (recorded.again c stale done).resolve_left (mt due_none.mpr notDue)

end Wave

namespace Sheet

variable {e : Extent} {s t : Sheet e} {a c : Address} {edit : Edit} {r : Report}

theorem value?_beq_self (proper : ∀ v, s.value? c = some v → v.isNaN = false) :
    (s.value? c == s.value? c) = true := by
  cases hv : s.value? c with
  | none => rfl
  | some v => exact (Value.Alike.refl v).beq (proper v hv)

theorem mem_cycles_noteBy (hs : Linked s) :
    c ∈ (s.noteBy a edit).cycles ↔ (c = a ∧ edit.formula?.isSome) ∧ s.Behind c := by
  cases edit with
  | typed text => simp [noteBy, Edit.formula?]
  | value v => simp [noteBy, Edit.formula?]
  | formula f =>
    rw [noteBy, mem_cycles_noteCycle hs]
    simp only [Array.not_mem_empty, false_or, Edit.formula?, Option.isSome_some, and_true]
    exact ⟨fun ⟨same, behind⟩ => ⟨same, same ▸ behind⟩, fun ⟨same, behind⟩ => ⟨same, same ▸ behind⟩⟩

structure Exact (s : Sheet e) (a : Address) (edit : Edit) (t : Sheet e) (r : Report) : Prop where
  distinct : r.changed.toList.Nodup
  differs : ∀ c ∈ r.changed, ¬ (s.value? c == t.value? c) = true
  same : ∀ c, c ∉ r.changed → t.value? c = s.value? c
  recomputed : ∀ c, c ∈ r.recomputed ↔ c ≠ a ∧ ∃ p ∈ r.changed, c ∈ t.children p
  cycles : ∀ c, c ∈ r.cycles ↔
    (c ∈ r.recomputed ∨ (c = a ∧ edit.formula?.isSome)) ∧ t.Behind c

theorem Exact.mem_changed (h : Exact s a edit t r) (other : t.value? c ≠ s.value? c) :
    c ∈ r.changed := by
  by_contra hc
  exact other (h.same c hc)

theorem Launched.exact {w : Wave e} (h : Launched s a edit w) (hs : Linked s)
    (inside : ∀ p ∈ readBy edit.formula?, p ∈ e) :
    Exact s a edit (w.run w.budget).sheet (w.run w.budget).report := by
  have cycles : w.report.cycles = ((s.rewire a edit.formula?).noteBy a edit).cycles := by
    rw [h.start]
    rfl
  have start : Wave.Recorded w.sheet a w.report.cycles w := by
    have := Wave.recorded_start h.linked (r := w.report) h.recomputed h.changed
    rw [h.start] at this ⊢
    exact this
  have recorded := start.run h.sound h.linked w.budget
  have counted := h.counted.run h.sound h.linked w.budget
  have sound := h.sound.run h.linked w.budget
  have form := h.form_run w.budget
  constructor
  case distinct =>
    exact recorded.distinct
  case differs =>
    intro c hc
    by_cases target : c = a
    · subst target
      rw [recorded.same c (Or.inr rfl)]
      exact h.other
    · rw [← h.values c target]
      exact recorded.differs c hc target
  case same =>
    intro c hc
    have target : c ≠ a := fun same => hc (same ▸ recorded.target)
    rw [recorded.same c (Or.inl hc), h.values c target]
  case recomputed =>
    intro c
    rw [recorded.mem_recomputed counted sound h.linked h.step_run]
    simp only [form.children, h.linked.mem_children]
  case cycles =>
    intro c
    rw [recorded.cycles, cycles, mem_cycles_noteBy (hs.rewire h.inside inside),
      form.behind_iff, h.form.behind_iff, ← or_and_right, or_comm]

theorem exact_edit (hs : Linked s) (h : s.edit a edit = .ok (t, r)) : Exact s a edit t r := by
  obtain ⟨ha, inside, ⟨-, rfl, rfl⟩ | ⟨w, hw, rfl, rfl⟩⟩ := edit_eq_waveOf h
  · have none : ((s.rewire a edit.formula?).noteBy a edit).changed = #[] := changed_noteBy _ a edit
    have idle : ((s.rewire a edit.formula?).noteBy a edit).recomputed = #[] :=
      recomputed_noteBy _ a edit
    constructor
    case distinct =>
      rw [none]
      exact List.nodup_nil
    case differs =>
      intro c hc
      exact absurd (none ▸ hc) (Array.not_mem_empty c)
    case same =>
      exact fun c _ => congrFun (value?_rewire hs ha inside) c
    case recomputed =>
      intro c
      simp [none, idle]
    case cycles =>
      intro c
      rw [mem_cycles_noteBy (hs.rewire ha inside), idle]
      simp
  · exact (launched hs ha inside hw).exact hs inside

/-- After any history that leaves no cell with the number that is no number, the report of an edit
that succeeds lists, once each, the cells whose values are other ones than before. The cells that
it lists as recomputed are the children of those, by the links after the edit, without the target,
and the cells that it lists as lying behind a cycle are those of them from which a cycle can be
reached, and the target if this is so and it has been given a formula. -/
theorem statistics_exact (e : Extent) (history : List (Address × Edit))
    (proper : ∀ c v, ((blank e).perform history).value? c = some v → v.isNaN = false)
    {a : Address} {edit : Edit} {t : Sheet e} {r : Report}
    (h : ((blank e).perform history).edit a edit = .ok (t, r)) :
    r.changed.toList.Nodup ∧
      (∀ c, c ∈ r.changed ↔
        ¬ (((blank e).perform history).value? c == t.value? c) = true) ∧
      (∀ c, c ∈ r.recomputed ↔ c ≠ a ∧ ∃ p ∈ r.changed, c ∈ t.children p) ∧
      ∀ c, c ∈ r.cycles ↔
        (c ∈ r.recomputed ∨ (c = a ∧ edit.formula?.isSome)) ∧ t.Behind c := by
  have linked : Linked ((blank e).perform history) := linked_perform linked_blank history
  have exact := exact_edit linked h
  refine ⟨exact.distinct, fun c => ⟨exact.differs c, fun other => ?_⟩, exact.recomputed,
    exact.cycles⟩
  by_contra hc
  refine other ?_
  rw [exact.same c hc]
  exact value?_beq_self (proper c)

/-- A cell that is made to refer to its reader changes along with it, and both lie behind a cycle;
the reader alone is recomputed. -/
theorem statistics_exact_closing_cycle :
    let e : Extent := ⟨1, 2, by decide, by decide, by decide, by decide⟩
    let a : Address := ⟨0, 0⟩
    let b : Address := ⟨0, 1⟩
    ∃ t r, ((blank e).perform [(b, .formula (.reference a))]).edit a (.formula (.reference b)) =
        .ok (t, r) ∧ (a ∈ r.changed ∧ b ∈ r.changed) ∧ (a ∉ r.recomputed ∧ b ∈ r.recomputed) ∧
      a ∈ r.cycles ∧ b ∈ r.cycles := by
  intro e a b
  have ha : a ∈ e := by decide
  have hb : b ∈ e := by decide
  have only {p : Address} (hp : p ∈ e) : ∀ q ∈ readBy (some (.reference p)), q ∈ e :=
    fun q hq => List.mem_singleton.mp hq ▸ hp
  let s : Sheet e := (blank e).perform [(b, .formula (.reference a))]
  have clean : ∀ x ∈ [(b, Edit.formula (.reference a))], x.2.CycleFree ∧ x.2.NaNFree := by
    simp [Edit.CycleFree, Edit.NaNFree, Formula.literals]
  have settled : Settled s := settled_perform fun x hx => (clean x hx).1
  have proper : Proper s := proper_perform fun x hx => (clean x hx).2
  obtain ⟨u, -, -, first, go⟩ :=
    exists_edited linked_blank (.formula (.reference a)) hb (only ha)
  have same : s = u := go _
  obtain ⟨t, r, h, second, -⟩ :=
    exists_edited settled.linked (.formula (.reference b)) ha (only hb)
  obtain ⟨-, changed, recomputed, cycles⟩ :=
    statistics_exact e [(b, .formula (.reference a))] (settled.not_isNaN proper) h
  -- before the edit no cell is behind a cycle, and after it both are
  have off {c : Address} (hc : c = a ∨ c = b) : ¬ s.Behind c := by
    have plain : s.formula? a = none :=
      same ▸ (first.formula_of_ne (by decide)).trans (formula?_blank a)
    have start : ¬ s.Behind a := not_behind_of_formula_eq_none settled.linked plain
    rcases hc with rfl | rfl
    · exact start
    · rw [not_behind_iff, same, first.parents_target, ← same]
      exact List.forall_mem_singleton.mpr start
  have there : b ∈ t.parents a := second.parents_target ▸ List.mem_singleton_self b
  have back : a ∈ t.parents b := by
    rw [second.parents settled.linked (by decide), same, first.parents_target]
    exact List.mem_singleton_self a
  have behind {c : Address} (hc : c = a ∨ c = b) : t.Behind c := by
    rcases hc with rfl | rfl
    · exact DependsOn.behind (.head there (.single back))
    · exact DependsOn.behind (.head back (.single there))
  have settled' : Settled t := settled.edited second (by simp [Edit.CycleFree, Formula.literals])
  have moved {c : Address} (hc : c = a ∨ c = b) : c ∈ r.changed := by
    refine (changed c).mpr fun k => ?_
    rw [settled'.eq_cycle (behind hc)] at k
    exact settled.ne_cycle c (off hc) (holds_fault.mp (holds_of_beq k))
  have again : b ∈ r.recomputed := (recomputed b).mpr
    ⟨by decide, a, moved (Or.inl rfl), (settled'.linked.mem_children a b).mpr back⟩
  exact ⟨t, r, h, ⟨moved (Or.inl rfl), moved (Or.inr rfl)⟩,
    ⟨fun k => ((recomputed a).mp k).1 rfl, again⟩,
    (cycles a).mpr ⟨Or.inr ⟨rfl, rfl⟩, behind (Or.inl rfl)⟩,
    (cycles b).mpr ⟨Or.inl again, behind (Or.inr rfl)⟩⟩

end Sheet

namespace Wave

open Sheet (Linked)

variable {e : Extent} {s : Sheet e} {origin a c : Address} {w v : Wave e}

/-- The wave in the turn of `a` when the counter of the child `c` is the next to be counted down;
the children before it have been told already. -/
inductive Counting (w : Wave e) (a c : Address) : Wave e → Prop where
  | child {before after : List Address} (first : a ∉ (w.refresh a).done)
      (children : (w.refresh a).sheet.children a = before ++ c :: after) :
      Counting w a c (before.foldl countDown
        { w.refresh a with done := (w.refresh a).done.insert a })

theorem Counting.waiting (linked : Linked (w.refresh a).sheet) (h : Counting w a c v) :
    v.waiting[c]? = (w.refresh a).waiting[c]? := by
  cases h with
  | @child before after first children =>
    have distinct := linked.nodup_children a
    rw [children] at distinct
    obtain ⟨told, -, apart⟩ := List.nodup_append.mp distinct
    have unheard : c ∉ before := fun k => apart c k c List.mem_cons_self rfl
    exact (countedDown_foldl told _).others c unheard

theorem Sound.counter_ne_zero {ready : List Address} (h : Sound s origin none w) (hs : Linked s)
    (next : w.ready = a :: ready) (counting : Counting { w with ready } a c v) :
    v.waiting[c]? ≠ some 0 := by
  have popped := h.pop next
  obtain ⟨f, hf⟩ := popped.formula hs (popped.due_mem a (Or.inr rfl))
  obtain ⟨sound, -, -⟩ := popped.refresh hs (refreshed_refresh hf)
  rw [counting.waiting (sound.linked hs)]
  intro zero
  exact absurd (sound.counts c 0 zero).2.1 (Nat.lt_irrefl 0)

theorem Sound.exists_counting {ready : List Address} (h : Sound s origin none w) (hs : Linked s)
    (next : w.ready = a :: ready) (first : a ∉ w.done) (link : a ∈ s.parents c) :
    ∃ v, Counting { w with ready } a c v ∧ v.waiting[c]? = w.waiting[c]? := by
  have popped := h.pop next
  obtain ⟨f, hf⟩ := popped.formula hs (popped.due_mem a (Or.inr rfl))
  have refreshed := refreshed_refresh hf
  obtain ⟨sound, -, -⟩ := popped.refresh hs refreshed
  have child : c ∈ (({ w with ready } : Wave e).refresh a).sheet.children a := by
    rwa [sound.mem_children hs]
  have fresh : a ∉ (({ w with ready } : Wave e).refresh a).done := by
    rw [refreshed.done]
    exact first
  obtain ⟨before, after, split⟩ := List.append_of_mem child
  have counting : Counting { w with ready } a c _ := .child fresh split
  refine ⟨_, counting, ?_⟩
  rw [counting.waiting (sound.linked hs), refreshed.waiting]

end Wave

namespace Sheet

variable {e : Extent} {s t : Sheet e} {a : Address} {edit : Edit} {r : Report}

theorem counted_edit (hs : Linked s) (h : s.edit a edit = .ok (t, r)) (c : Address) :
    (¬ t.Behind c → r.recomputed.count c ≤ 1) ∧
      r.recomputed.count c ≤ (t.parents c).countP r.changed.contains := by
  obtain ⟨ha, inside, ⟨-, -, rfl⟩ | ⟨w, hw, rfl, rfl⟩⟩ := edit_eq_waveOf h
  · rw [recomputed_noteBy, Array.count_empty]
    exact ⟨fun _ => Nat.zero_le 1, Nat.zero_le _⟩
  · have launched := launched hs ha inside hw
    have counted := launched.counted.run launched.sound launched.linked w.budget
    have form := launched.form_run w.budget
    refine ⟨fun off => counted.once c (mt (form.behind_iff c).mpr off), ?_⟩
    rw [form.parents]
    exact (Nat.le_add_right _ _).trans (counted.paid c)

/-- After any history, the propagation of an edit that succeeds takes its last step by itself, and
no counter is counted down below zero on the way; an edit without a propagation recomputes nothing.
A cell that is not behind a cycle is recomputed once at most, and every cell at most as many times
as parents of it have changed. -/
theorem propagation_ends (e : Extent) (history : List (Address × Edit)) {a : Address} {edit : Edit}
    {t : Sheet e} {r : Report} (h : ((blank e).perform history).edit a edit = .ok (t, r)) :
    (match ((blank e).perform history).waveOf a edit with
      | some w => (w.run w.budget).step = none ∧
          t = (w.run w.budget).sheet ∧ r = (w.run w.budget).report ∧
          ∀ n b ready c v, (w.run n).ready = b :: ready →
            Wave.Counting { w.run n with ready } b c v → v.waiting[c]? ≠ some 0
      | none => r.recomputed = #[] ∧ r.changed = #[]) ∧
      ∀ c, (¬ t.Behind c → r.recomputed.count c ≤ 1) ∧
        r.recomputed.count c ≤ (t.parents c).countP r.changed.contains := by
  have linked : Linked ((blank e).perform history) := linked_perform linked_blank history
  refine ⟨?_, counted_edit linked h⟩
  obtain ⟨ha, inside, ⟨hw, -, rfl⟩ | ⟨w, hw, rfl, rfl⟩⟩ := edit_eq_waveOf h
  · rw [hw]
    exact ⟨recomputed_noteBy _ a edit, changed_noteBy _ a edit⟩
  · rw [hw]
    have launched := launched linked ha inside hw
    refine ⟨launched.step_run, rfl, rfl, ?_⟩
    intro n b ready c v next counting
    exact (launched.sound.run launched.linked n).counter_ne_zero launched.linked next counting

/-- Two cells that read the first one are recomputed once each when it is written to. The second of
them reads the other one as well, and its counter stands at one when that one has had its turn. -/
theorem propagation_ends_two_readers :
    let e : Extent := ⟨1, 3, by decide, by decide, by decide, by decide⟩
    let a : Address := ⟨0, 0⟩
    let b : Address := ⟨0, 1⟩
    let c : Address := ⟨0, 2⟩
    let s := (blank e).perform [(b, .formula (.reference a)),
      (c, .formula (.reduction .join [a, b]))]
    ∃ t r w ready v, s.edit a (.value (.text "new")) = .ok (t, r) ∧
      s.waveOf a (.value (.text "new")) = some w ∧ (w.run w.budget).step = none ∧
      w.ready = b :: ready ∧ Wave.Counting { w with ready } b c v ∧
      v.waiting[c]? = some 1 ∧ v.waiting[c]? ≠ some 0 ∧
      r.recomputed.count b = 1 ∧ r.recomputed.count c = 1 := by
  intro e a b c s
  have ha : a ∈ e := by decide
  have hb : b ∈ e := by decide
  have hc : c ∈ e := by decide
  have nothing : ∀ p ∈ readBy (Edit.value (.text "new")).formula?, p ∈ e :=
    fun p hp => absurd hp List.not_mem_nil
  have both : readBy (some (.reduction .join [a, b])) = [a, b] := rfl
  obtain ⟨s₁, -, -, first, go₁⟩ := exists_edited linked_blank (.formula (.reference a)) hb
    fun p hp => List.mem_singleton.mp hp ▸ ha
  obtain ⟨s₂, -, -, second, go₂⟩ := exists_edited first.linked
    (.formula (.reduction .join [a, b])) hc fun p hp => by
      rcases List.mem_pair.mp (both ▸ hp) with rfl | rfl
      · exact ha
      · exact hb
  have same : s = s₂ := (go₁ _).trans (go₂ _)
  have linked : Linked s := same ▸ second.linked
  obtain ⟨t, r, h, third, -⟩ := exists_edited linked (.value (.text "new")) ha nothing
  obtain ⟨wave, counts⟩ := propagation_ends e _ h
  have exact := exact_edit linked h
  -- the links, and which cells are readers
  have plain {p : Address} (notB : p ≠ b) (notC : p ≠ c) : s.formula? p = none := by
    rw [same, second.formula_of_ne notC, first.formula_of_ne notB, formula?_blank]
  have parents_b : s.parents b = [a] := by
    rw [same, second.parents first.linked (by decide), first.parents_target]
    rfl
  have parents_c : s.parents c = [a, b] := by
    rw [same, second.parents_target]
    exact both
  have kept {p : Address} (hp : p ≠ a) : t.parents p = s.parents p := third.parents linked hp
  -- the first cell changes
  have wrote : a ∈ r.changed := by
    have old : s.value? a = some .empty := by
      rw [same, second.plain a (by decide) (same ▸ plain (by decide) (by decide)),
        first.plain a (by decide) ((first.formula_of_ne (by decide)).trans (formula?_blank a)),
        value?_blank ha]
    have new : t.value? a = some (.text "new") := (holds_iff rfl).mp third.target
    apply exact.mem_changed
    rw [old, new]
    exact fun same => absurd (Value.text.inj (Option.some.inj same)) (by decide)
  -- no cell is behind a cycle, so both readers are recomputed once
  have off_a : ¬ t.Behind a := not_behind_of_formula_eq_none third.linked third.formula_target
  have off_b : ¬ t.Behind b := by
    rw [not_behind_iff, kept (by decide), parents_b]
    exact List.forall_mem_singleton.mpr off_a
  have off_c : ¬ t.Behind c := by
    rw [not_behind_iff, kept (by decide), parents_c]
    exact List.forall_mem_cons.mpr ⟨off_a, List.forall_mem_singleton.mpr off_b⟩
  have once {p : Address} (hp : p ≠ a) (link : a ∈ s.parents p) (off : ¬ t.Behind p) :
      r.recomputed.count p = 1 := by
    have child : p ∈ t.children a := (third.linked.mem_children a p).mpr (kept hp ▸ link)
    have told : p ∈ r.recomputed := (exact.recomputed p).mpr ⟨hp, a, wrote, child⟩
    exact Nat.le_antisymm ((counts p).1 off) (Array.count_pos_iff.mpr told)
  have once_b : r.recomputed.count b = 1 := once (by decide) (by simp [parents_b]) off_b
  have once_c : r.recomputed.count c = 1 := once (by decide) (by simp [parents_c]) off_c
  cases hw : s.waveOf a (.value (.text "new")) with
  | none =>
    rw [show ((blank e).perform _).waveOf a _ = none from hw] at wave
    exact absurd (wave.2 ▸ wrote) (Array.not_mem_empty a)
  | some w =>
    rw [show ((blank e).perform _).waveOf a _ = some w from hw] at wave
    obtain ⟨ended, -, -, counter⟩ := wave
    have launched := launched linked ha nothing hw
    have idle : w.done = ∅ := by
      rw [launched.start]
      rfl
    rw [← launched.parents linked nothing (by decide)] at parents_b parents_c
    have apart : a ∉ w.sheet.downstream a := fun k => ((mem_downstream launched.linked).mp k).1 rfl
    have part_b : b ∈ w.sheet.downstream a :=
      downstream_of_parent launched.linked (Or.inl rfl) (by simp [parents_b]) (by decide)
    have part_c : c ∈ w.sheet.downstream a :=
      downstream_of_parent launched.linked (Or.inl rfl) (by simp [parents_c]) (by decide)
    -- the first reader alone is ready, and the second one waits for it
    have missing_b : Wave.missing w.sheet a w b = 0 := by simp [Wave.missing, parents_b, apart]
    have missing_c : Wave.missing w.sheet a w c = 1 := by
      simp [Wave.missing, parents_c, apart, part_b, idle]
    have ready_b : b ∈ w.ready := launched.mem_ready.mpr ⟨part_b, missing_b⟩
    have waits_c : w.waiting[c]? = some 1 :=
      launched.waiting.mpr ⟨part_c, Nat.one_pos, missing_c.symm⟩
    have only : ∀ p ∈ w.ready, p = b := by
      intro p hp
      obtain ⟨part, missing⟩ := launched.mem_ready.mp hp
      by_contra other
      refine mem_downstream_of_formula_eq_none launched.linked ?_ part
      rw [launched.form.formula, formula?_rewire linked ha nothing,
        if_neg ((mem_downstream launched.linked).mp part).1]
      refine plain other fun same => ?_
      rw [same, missing_c] at missing
      exact Nat.one_ne_zero missing
    cases next : w.ready with
    | nil => exact absurd (next ▸ ready_b) List.not_mem_nil
    | cons p ready =>
      obtain rfl := only p (next ▸ List.mem_cons_self)
      obtain ⟨v, counting, waiting⟩ := launched.sound.exists_counting launched.linked next
        (idle ▸ Std.HashSet.not_mem_empty) (c := c) (by simp [parents_c])
      exact ⟨t, r, w, ready, v, h, rfl, ended, next, counting, waiting.trans waits_c,
        counter 0 b ready c v next counting, once_b, once_c⟩

end Sheet

end ReactiveSheet
