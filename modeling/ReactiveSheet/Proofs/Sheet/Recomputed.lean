import ReactiveSheet.Proofs.Sheet.Edit

/-!
What turns write into the report, how often cells are recomputed, and in which order.

`Turned` puts the two halves of a turn together and leaves out the counters, so that what is to be
known of the report can be proved from step to step: `Sound.run_lasting`. A dirty cell is noted as
recomputed, and as changed if it gets another value, which no cell does twice.

Every recomputation of a cell is paid for by another parent that has changed. Away from cycles a
cell has its turn after all its parents and is not dirty afterwards, so it is recomputed once at
most, and after those of its parents that are recomputed at all: `Counted`. The wave of an edit is
`waveOf`.
-/

namespace ReactiveSheet

namespace Sheet

variable {e : Extent} {s : Sheet e} {a c : Address}

theorem recomputed_noteCycle (s : Sheet e) (a : Address) (r : Report) :
    (s.noteCycle a r).recomputed = r.recomputed := by
  unfold noteCycle
  cases s.cycleFrom? a <;> rfl

theorem mem_cycles_noteCycle (hs : Linked s) {r : Report} :
    c ∈ (s.noteCycle a r).cycles ↔ c ∈ r.cycles ∨ (c = a ∧ s.Behind a) := by
  rw [← isSome_cycleFrom? hs]
  unfold noteCycle
  cases s.cycleFrom? a with
  | none => simp
  | some path => simp

theorem report_store (s : Sheet e) (a : Address) (v : Value) (r : Report) :
    (s.store a v r).2.1.recomputed = r.recomputed ∧ (s.store a v r).2.1.cycles = r.cycles := by
  unfold store
  split <;> exact ⟨rfl, rfl⟩

end Sheet

namespace Wave

open Std (HashMap HashSet)
open Sheet (Linked)

variable {e : Extent} {s : Sheet e} {origin a : Address} {w u v : Wave e}

structure Noted (s : Sheet e) (a : Address) (w u : Wave e) : Prop where
  recomputed : u.report.recomputed = w.report.recomputed.push a
  cycles : ∀ c, c ∈ u.report.cycles ↔ c ∈ w.report.cycles ∨ (c = a ∧ s.Behind a)

theorem noted_refresh {f : Formula} (linked : Linked w.sheet) (form : Sheet.SameForm s w.sheet)
    (hf : w.sheet.formula? a = some f) (dirty : a ∈ w.dirty) : Noted s a w (w.refresh a) := by
  have report : (w.refresh a).report = (w.sheet.recompute a w.report).2.1 := by
    rw [refresh, if_pos (HashSet.contains_iff_mem.mpr dirty)]
    dsimp only
    split
    · exact (marked_foldl _ _).report
    · rfl
  rw [Sheet.recompute, hf] at report
  simp only [Sheet.settle_eq_store] at report
  obtain ⟨recomputed, cycles⟩ := Sheet.report_store w.sheet a (w.sheet.worth a f)
    (w.sheet.noteCycle a { w.report with recomputed := w.report.recomputed.push a })
  constructor
  · rw [report, recomputed, Sheet.recomputed_noteCycle]
  · intro c
    rw [report, cycles, Sheet.mem_cycles_noteCycle linked, form.behind_iff]

/-- What a turn of `a` does to the values, to the dirty cells and to the report. -/
inductive Effect (s : Sheet e) (w : Wave e) (a : Address) (u : Wave e) : Prop where
  | clean (clean : a ∉ w.dirty) (sheet : u.sheet = w.sheet) (report : u.report = w.report)
      (dirty : ∀ c, c ∈ u.dirty ↔ c ∈ w.dirty)
  | kept (stale : a ∈ w.dirty) (sheet : u.sheet = w.sheet) (noted : Noted s a w u)
      (changed : u.report.changed = w.report.changed)
      (dirty : ∀ c, c ∈ u.dirty ↔ c ∈ w.dirty ∧ c ≠ a)
  | changed {f : Formula} (stale : a ∈ w.dirty) (formula : s.formula? a = some f)
      (new : a ∉ w.report.changed)
      (other : ¬ (w.sheet.value? a == some (w.sheet.worth a f)) = true)
      (sheet : u.sheet = w.sheet.put a (w.sheet.worth a f)) (noted : Noted s a w u)
      (changed : u.report.changed = w.report.changed.push a)
      (dirty : ∀ c, c ∈ u.dirty ↔ c ∈ w.dirty ∧ c ≠ a ∨ a ∈ s.parents c)
      (again : ∀ c, a ∈ s.parents c → c ∉ w.dirty → c ∈ w.done → c ∈ u.ready)

/-- A turn of `a`, apart from the counters. -/
structure Turned (s : Sheet e) (origin : Address) (w : Wave e) (a : Address) (u : Wave e) :
    Prop where
  part : a ∈ s.downstream origin
  due : a ∈ w.ready
  done : ∀ c, c ∈ u.done ↔ c = a ∨ c ∈ w.done
  effect : Effect s w a u
  still : ∀ c ∈ w.ready, c = a ∨ c ∈ u.ready
  ready : ∀ c ∈ u.ready, c ∈ w.ready ∨ c ∈ w.done ∨
    ∀ p ∈ s.parents c, p ∈ s.downstream origin → p ∈ u.done

structure Finished (s : Sheet e) (origin : Address) (w : Wave e) (a : Address) (u : Wave e) :
    Prop where
  sheet : u.sheet = w.sheet
  report : u.report = w.report
  dirty : u.dirty = w.dirty
  done : ∀ c, c ∈ u.done ↔ c = a ∨ c ∈ w.done
  still : ∀ c ∈ w.ready, c ∈ u.ready
  ready : ∀ c ∈ u.ready, c ∈ w.ready ∨ ∀ p ∈ s.parents c, p ∈ s.downstream origin → p ∈ u.done

theorem Sound.finished (h : Sound s origin (some a) w) (hs : Linked s) :
    Finished s origin w a (w.finish a) := by
  by_cases done : a ∈ w.done
  · rw [finish_of_done done]
    exact ⟨rfl, rfl, rfl, fun c => ⟨Or.inr, fun k => k.elim (fun same => same ▸ done) id⟩,
      fun c k => k, fun c k => Or.inl k⟩
  · have counted := countedDown_finish (h.linked hs) done
    have mem_done {c : Address} : c ∈ (w.finish a).done ↔ c = a ∨ c ∈ w.done := by
      rw [counted.done, HashSet.mem_insert, beq_iff_eq, eq_comm]
    refine ⟨counted.sheet, counted.report, counted.dirty, fun c => mem_done,
      fun c k => (counted.ready c).mpr (Or.inl k), ?_⟩
    intro c hc
    refine ((counted.ready c).mp hc).imp_right ?_
    rintro ⟨child, n, last, hn⟩ p hp part
    exact mem_done.mpr (h.done_of_last hs done child hn last p hp part)

theorem Sound.turned {ready : List Address} (h : Sound s origin none w) (hs : Linked s)
    (next : w.ready = a :: ready) :
    Turned s origin w a ((({ w with ready } : Wave e).refresh a).finish a) := by
  have popped := h.pop next
  obtain ⟨f, hf⟩ := popped.formula hs (popped.due_mem a (Or.inr rfl))
  have first := refreshed_refresh hf
  have noted := noted_refresh (popped.linked hs) popped.form hf
  generalize ({ w with ready } : Wave e).refresh a = v at first noted ⊢
  have finished := (popped.refresh hs first).1.finished hs
  generalize v.finish a = u at finished ⊢
  have note (dirty : a ∈ w.dirty) : Noted s a w u := by
    obtain ⟨recomputed, cycles⟩ := noted dirty
    rw [← finished.report] at recomputed cycles
    exact ⟨recomputed, cycles⟩
  have still {c : Address} (hc : c ∈ w.ready) : c = a ∨ c ∈ ready := List.mem_cons.mp (next ▸ hc)
  have old {c : Address} (hc : c ∈ ready) : c ∈ w.ready := next ▸ List.mem_cons_of_mem _ hc
  constructor
  case part =>
    exact popped.due_mem a (Or.inr rfl)
  case due =>
    exact next ▸ List.mem_cons_self
  case done =>
    intro c
    rw [finished.done]
    cases first with
    | clean _ => rfl
    | kept _ _ _ _ _ => rfl
    | changed _ _ _ _ _ marked => rw [marked.done]
  case effect =>
    cases first with
    | clean clean =>
      exact .clean clean finished.sheet finished.report fun c => by rw [finished.dirty]
    | kept dirty hf same r hr =>
      refine .kept dirty finished.sheet (note dirty) (finished.report ▸ hr) fun c => ?_
      rw [finished.dirty]
      exact mem_erase_iff
    | changed dirty hf other r hr marked =>
      refine .changed dirty (popped.form.formula ▸ hf) (popped.not_changed hs dirty other) other
        (finished.sheet.trans marked.sheet) (note dirty) ?_ (fun c => ?_)
        fun c link fresh done => ?_
      · rw [finished.report, marked.report]
        exact hr
      · rw [finished.dirty, marked.dirty, popped.mem_children hs]
        exact or_congr_left mem_erase_iff
      · have stale : c ∉ w.dirty.erase a := mt (fun k => (mem_erase_iff.mp k).1) fresh
        refine finished.still c ((marked.ready c).mpr (Or.inr ⟨?_, stale, done⟩))
        exact (popped.mem_children hs).mpr link
  case still =>
    intro c hc
    refine (still hc).imp_right fun hc => finished.still c ?_
    cases first with
    | clean _ => exact hc
    | kept _ _ _ _ _ => exact hc
    | changed _ _ _ _ _ marked => exact (marked.ready c).mpr (Or.inl hc)
  case ready =>
    intro c hc
    rcases finished.ready c hc with hc | all
    · cases first with
      | clean _ => exact Or.inl (old hc)
      | kept _ _ _ _ _ => exact Or.inl (old hc)
      | changed _ _ _ _ _ marked =>
        rcases (marked.ready c).mp hc with hc | ⟨-, -, done⟩
        · exact Or.inl (old hc)
        · exact Or.inr (Or.inl done)
    · exact Or.inr (Or.inr all)

/-- What holds at the start of a sound wave and outlasts turns and releases holds at the end. -/
theorem Sound.run_lasting {J : Wave e → Prop} (sound : Sound s origin none w) (hs : Linked s)
    (start : J w)
    (turn : ∀ w a u, Sound s origin none w → Turned s origin w a u → J w → J u)
    (release : ∀ (w : Wave e) a held, Sound s origin none w → w.ready = [] → a ∈ w.waiting → J w →
      J { w with ready := [a], held, waiting := w.waiting.erase a }) (n : Nat) : J (w.run n) := by
  refine (run_preserves (I := fun w => Sound s origin none w ∧ J w) ?_ ⟨sound, start⟩).2
  intro w v ⟨sound, holds⟩ hv
  refine ⟨(sound.step hs hv).1, ?_⟩
  cases stepped_of_step hv with
  | @turn a ready next => exact turn w a _ sound (sound.turned hs next) holds
  | @release a held idle waits _ => exact release w a held sound idle waits holds

variable {c : Address}

def changedParents (s : Sheet e) (changed : Array Address) (c : Address) : Nat :=
  (s.parents c).countP changed.contains

structure Counted (s : Sheet e) (w : Wave e) : Prop where
  visited : ∀ c ∈ w.report.recomputed, c ∈ w.done
  once : ∀ c, ¬ s.Behind c → w.report.recomputed.count c ≤ 1
  order : w.report.recomputed.toList.Pairwise fun c p => ¬ s.Behind c → p ∉ s.parents c
  paid : ∀ c, w.report.recomputed.count c + (if c ∈ w.dirty then 1 else 0) ≤
    changedParents s w.report.changed c

theorem changedParents_push (hs : Linked s) {changed : Array Address} (new : a ∉ changed)
    (c : Address) : changedParents s (changed.push a) c =
      changedParents s changed c + if a ∈ s.parents c then 1 else 0 := by
  have distinct := hs.nodup_parents c
  unfold changedParents
  generalize s.parents c = ps at distinct
  induction ps with
  | nil => rfl
  | cons p ps ih =>
    obtain ⟨other, distinct⟩ := List.nodup_cons.mp distinct
    rw [List.countP_cons, List.countP_cons, ih distinct, Array.contains_push]
    by_cases same : a = p
    · subst same
      simp [new, other]
    · have apart : (p == a) = false := beq_eq_false_iff_ne.mpr (Ne.symm same)
      rw [apart, Bool.or_false]
      simp only [List.mem_cons, same, false_or]
      omega

theorem Counted.not_recomputed (counted : Counted s w) (sound : Sound s origin none w)
    (stale : c ∈ w.dirty) (off : ¬ s.Behind c) : c ∉ w.report.recomputed := fun k =>
  sound.fresh c (counted.visited c k) off stale

theorem Counted.not_parent (counted : Counted s w) (sound : Sound s origin none w)
    (part : a ∈ s.downstream origin) (stale : a ∈ w.dirty) (hc : c ∈ w.report.recomputed)
    (off : ¬ s.Behind c) : a ∉ s.parents c := by
  intro link
  have before := sound.ordered c off (Or.inr (counted.visited c hc)) a link part
  exact sound.fresh a before (fun behind => off (behind.of_parent link)) stale

theorem Counted.recompute (counted : Counted s w) (sound : Sound s origin none w)
    (turned : Turned s origin w a u) (stale : a ∈ w.dirty)
    (noted : u.report.recomputed = w.report.recomputed.push a)
    (paid : ∀ c, u.report.recomputed.count c + (if c ∈ u.dirty then 1 else 0) ≤
      changedParents s u.report.changed c) : Counted s u := by
  constructor
  case visited =>
    intro c hc
    rw [noted, Array.mem_push] at hc
    exact (turned.done c).mpr (hc.symm.imp_right (counted.visited c))
  case once =>
    intro c off
    rw [noted, Array.count_push]
    have before := counted.once c off
    by_cases same : a = c
    · subst same
      have := Array.count_eq_zero.mpr (counted.not_recomputed sound stale off)
      simp [this]
    · simpa [same] using before
  case order =>
    rw [noted, Array.toList_push]
    refine List.pairwise_append.mpr ⟨counted.order, List.pairwise_singleton _ _, ?_⟩
    intro c hc p hp off
    rw [List.mem_singleton.mp hp]
    exact counted.not_parent sound turned.part stale (Array.mem_toList_iff.mp hc) off
  case paid =>
    exact paid

theorem Counted.turn (counted : Counted s w) (sound : Sound s origin none w) (hs : Linked s)
    (turned : Turned s origin w a u) : Counted s u := by
  cases turned.effect with
  | clean _ _ report dirty =>
    have same (c : Address) : (c ∈ u.dirty) = (c ∈ w.dirty) := propext (dirty c)
    exact {
      visited := fun c hc => (turned.done c).mpr (Or.inr (counted.visited c (report ▸ hc)))
      once := report ▸ counted.once
      order := report ▸ counted.order
      paid := fun c => by simpa only [report, same c] using counted.paid c }
  | kept stale _ noted changed dirty =>
    refine counted.recompute sound turned stale noted.recomputed fun c => ?_
    have before := counted.paid c
    rw [changed, noted.recomputed, Array.count_push]
    simp only [dirty c]
    by_cases same : a = c
    · subst same
      simpa [stale] using before
    · simpa [same, Ne.symm same] using before
  | changed stale _ new _ _ noted changed dirty _ =>
    refine counted.recompute sound turned stale noted.recomputed fun c => ?_
    have before := counted.paid c
    rw [changed, noted.recomputed, Array.count_push, changedParents_push hs new]
    simp only [dirty c]
    by_cases same : a = c
    · subst same
      simp only [stale, if_true, beq_self_eq_true, ne_eq, not_true_eq_false, and_false,
        false_or] at before ⊢
      split <;> omega
    · have apart : ¬ (a == c) = true := fun k => same (eq_of_beq k)
      rw [if_neg apart]
      by_cases link : a ∈ s.parents c
      · simp only [link, or_true, if_true]
        omega
      · simpa [link, Ne.symm same] using before

theorem counted_start (hs : Linked s) {r : Report} (fresh : r.recomputed = #[])
    (first : r.changed = #[origin]) : Counted s (start s origin r) := by
  constructor
  case visited =>
    intro c hc
    exact absurd (show c ∈ r.recomputed from hc) (by simp [fresh])
  case once =>
    intro c _
    change r.recomputed.count c ≤ 1
    simp [fresh]
  case order =>
    change r.recomputed.toList.Pairwise _
    rw [fresh]
    exact List.Pairwise.nil
  case paid =>
    intro c
    change r.recomputed.count c + _ ≤ changedParents s r.changed c
    have dirty : c ∈ (start s origin r).dirty ↔ origin ∈ s.parents c := by
      rw [← hs.mem_children]
      exact HashSet.mem_ofList.trans List.contains_iff_mem
    rw [fresh, first, Array.count_empty, Nat.zero_add]
    simp only [dirty]
    split
    · rename_i link
      exact List.countP_pos_iff.mpr ⟨origin, link, by simp⟩
    · exact Nat.zero_le _

theorem Counted.run (counted : Counted s w) (sound : Sound s origin none w) (hs : Linked s)
    (n : Nat) : Counted s (w.run n) :=
  sound.run_lasting hs counted (fun _ _ _ sound turned counted => counted.turn sound hs turned)
    (fun _ _ _ _ _ _ counted => { counted with }) n

end Wave

namespace Sheet

variable {e : Extent} {s t : Sheet e} {a : Address} {edit : Edit} {r : Report}

/-- The wave that an edit sends out, if it changes the value of its target. -/
def waveOf (s : Sheet e) (a : Address) (edit : Edit) : Option (Wave e) :=
  let u := s.rewire a edit.formula?
  if u.value? a == some (u.dueBy a edit) then none
  else some (.start (u.put a (u.dueBy a edit)) a { u.noteBy a edit with changed := #[a] })

/-- What an edit returns is what it has rewired, as it is or after its wave has run. -/
theorem edit_eq_waveOf (h : s.edit a edit = .ok (t, r)) :
    a ∈ e ∧ (∀ p ∈ readBy edit.formula?, p ∈ e) ∧
      ((s.waveOf a edit = none ∧ t = s.rewire a edit.formula? ∧
          r = (s.rewire a edit.formula?).noteBy a edit) ∨
        ∃ w, s.waveOf a edit = some w ∧ t = (w.run w.budget).sheet ∧
          r = (w.run w.budget).report) := by
  obtain ⟨ha, inside, h⟩ := edit_eq_follow_noteBy h
  refine ⟨ha, inside, ?_⟩
  unfold waveOf
  dsimp only at h ⊢
  generalize s.rewire a edit.formula? = u at h ⊢
  by_cases same : (u.value? a == some (u.dueBy a edit)) = true
  · rw [store_of_beq same] at h
    obtain ⟨rfl, rfl⟩ := Prod.mk.inj h
    exact Or.inl ⟨if_pos same, rfl, rfl⟩
  · rw [store_of_not_beq same, changed_noteBy] at h
    obtain ⟨rfl, rfl⟩ := Prod.mk.inj h
    exact Or.inr ⟨_, if_neg same, rfl, rfl⟩

theorem recomputed_noteBy (s : Sheet e) (a : Address) (edit : Edit) :
    (s.noteBy a edit).recomputed = #[] := by
  cases edit with
  | typed text => rfl
  | value v => rfl
  | formula f => exact recomputed_noteCycle s a {}

structure Launched (s : Sheet e) (a : Address) (edit : Edit) (w : Wave e) : Prop where
  linked : Linked w.sheet
  form : SameForm (s.rewire a edit.formula?) w.sheet
  inside : a ∈ e
  target : w.sheet.value? a = some ((s.rewire a edit.formula?).dueBy a edit)
  other : ¬ (s.value? a == w.sheet.value? a) = true
  values : ∀ c, c ≠ a → w.sheet.value? c = s.value? c
  start : w = .start w.sheet a { (s.rewire a edit.formula?).noteBy a edit with changed := #[a] }

theorem launched (hs : Linked s) (ha : a ∈ e) (inside : ∀ p ∈ readBy edit.formula?, p ∈ e)
    {w : Wave e} (h : s.waveOf a edit = some w) : Launched s a edit w := by
  let u := s.rewire a edit.formula?
  have linked : Linked u := hs.rewire ha inside
  have old : u.value? = s.value? := value?_rewire hs ha inside
  unfold waveOf at h
  dsimp only at h
  split at h
  · exact nomatch h
  · rename_i other
    obtain rfl := Option.some.inj h
    have target := value?_put_self (s := u) ha (u.dueBy a edit)
    constructor
    case linked =>
      exact linked.of_sameForm (sameForm_put u a _)
    case form =>
      exact sameForm_put u a _
    case inside =>
      exact ha
    case target =>
      exact target
    case other =>
      intro k
      change (s.value? a == (u.put a (u.dueBy a edit)).value? a) = true at k
      rw [target, ← old] at k
      exact other k
    case values =>
      intro c hc
      exact (value?_put_of_ne u hc _).trans (congrFun old c)
    case start =>
      rfl

namespace Launched

variable {w : Wave e}

theorem changed (h : Launched s a edit w) : w.report.changed = #[a] := by
  rw [h.start]
  rfl

theorem recomputed (h : Launched s a edit w) : w.report.recomputed = #[] := by
  rw [h.start]
  exact recomputed_noteBy _ a edit

theorem parents (h : Launched s a edit w) (hs : Linked s)
    (inside : ∀ p ∈ readBy edit.formula?, p ∈ e) {c : Address} (hc : c ≠ a) :
    w.sheet.parents c = s.parents c := by
  rw [h.form.parents, parents_rewire hs h.inside inside, if_neg hc]

theorem mem_ready (h : Launched s a edit w) {c : Address} :
    c ∈ w.ready ↔ c ∈ w.sheet.downstream a ∧ Wave.missing w.sheet a w c = 0 := by
  rw [h.start]
  exact Wave.mem_ready_start

theorem waiting (h : Launched s a edit w) {c : Address} {n : Nat} : w.waiting[c]? = some n ↔
    c ∈ w.sheet.downstream a ∧ 0 < n ∧ n = Wave.missing w.sheet a w c := by
  have linked := h.linked
  rw [h.start] at linked ⊢
  exact Wave.waiting_start linked

theorem sound (h : Launched s a edit w) : Wave.Sound w.sheet a none w := by
  rw [h.start]
  refine Wave.sound_start h.linked fun c hc k => ?_
  have only : c = a := by simpa using k
  exact ((mem_downstream h.linked).mp hc).1 only

theorem counted (h : Launched s a edit w) : Wave.Counted w.sheet w := by
  have := Wave.counted_start h.linked (r := w.report) h.recomputed h.changed
  rw [h.start] at this ⊢
  exact this

theorem step_run (h : Launched s a edit w) : (w.run w.budget).step = none := by
  refine h.sound.step_run h.linked ?_
  rw [h.start]
  exact Wave.load_start_le _ a _

theorem form_run (h : Launched s a edit w) (n : Nat) : SameForm w.sheet (w.run n).sheet :=
  (h.sound.run h.linked n).form

end Launched

end Sheet

end ReactiveSheet
