import ReactiveSheet.Proofs.Sheet.Wave

/-!
A wave ends after every cell that takes part has had its turn.

`Sound` is what holds between any two steps. Away from cycles a cell has its turn after all its
parents, so that it changes once at most and is not dirty afterwards. Behind a cycle it may have
further turns, but it holds the cycle fault once it has changed. So each cell changes once at most,
and `load`, which pays for the turns that a change can still bring about, goes down with each step.
-/

namespace ReactiveSheet.Wave

open Std (HashMap HashSet)
open Sheet (SameForm Linked downstream_of_parent)

variable {e : Extent} {s : Sheet e} {origin : Address}

/-- The turn of the cell is to come, or it is the one that is going on. -/
def Due (w : Wave e) (busy : Option Address) (c : Address) : Prop := c ∈ w.ready ∨ busy = some c

@[simp]
theorem due_none {w : Wave e} {c : Address} : w.Due none c ↔ c ∈ w.ready := by simp [Due]

@[simp]
theorem due_some {w : Wave e} {a c : Address} : w.Due (some a) c ↔ c ∈ w.ready ∨ c = a := by
  simp [Due, eq_comm]

def missing (s : Sheet e) (origin : Address) (w : Wave e) (c : Address) : Nat :=
  (s.parents c).countP fun p => decide (p ∈ s.downstream origin ∧ p ∉ w.done)

structure Sound (s : Sheet e) (origin : Address) (busy : Option Address) (w : Wave e) : Prop where
  form : SameForm s w.sheet
  due_mem : ∀ c, w.Due busy c → c ∈ s.downstream origin
  done_mem : ∀ c ∈ w.done, c ∈ s.downstream origin
  dirty_mem : ∀ c ∈ w.dirty, c = origin ∨ c ∈ s.downstream origin
  counts : ∀ c n, w.waiting[c]? = some n →
    c ∈ s.downstream origin ∧ 0 < n ∧ n = missing s origin w c
  apart : ∀ c ∈ w.waiting, ¬ w.Due busy c ∧ c ∉ w.done
  held : ∀ c ∈ w.waiting, c ∈ w.held
  placed : ∀ c ∈ s.downstream origin, c ∈ w.waiting ∨ w.Due busy c ∨ c ∈ w.done
  ordered : ∀ c, ¬ s.Behind c → w.Due busy c ∨ c ∈ w.done →
    ∀ p ∈ s.parents c, p ∈ s.downstream origin → p ∈ w.done
  fresh : ∀ c ∈ w.done, ¬ s.Behind c → c ∉ w.dirty
  again : ∀ c ∈ w.dirty, c ∈ w.done →
    w.Due busy c ∨ (s.Behind c ∧ w.sheet.value? c = some (.fault .cycle))
  once : ∀ c ∈ s.downstream origin, c ∈ w.report.changed →
    (s.Behind c ∧ w.sheet.value? c = some (.fault .cycle)) ∨
      (¬ s.Behind c ∧ (c ∈ w.done ∨ (busy = some c ∧ c ∉ w.dirty)))

theorem Sound.linked {busy : Option Address} {w : Wave e} (h : Sound s origin busy w)
    (hs : Linked s) : Linked w.sheet := hs.of_sameForm h.form

theorem Sound.mem_children {busy : Option Address} {w : Wave e} {a c : Address}
    (h : Sound s origin busy w) (hs : Linked s) : c ∈ w.sheet.children a ↔ a ∈ s.parents c := by
  rw [h.form.children]
  exact hs.mem_children a c

theorem missing_eq_zero {w : Wave e} {c : Address} : missing s origin w c = 0 ↔
    ∀ p ∈ s.parents c, p ∈ s.downstream origin → p ∈ w.done := by
  simp [missing, List.countP_eq_zero]

theorem due_of_ready {w : Wave e} {a : Address} {ready : List Address} (h : w.ready = a :: ready)
    (c : Address) : Due { w with ready } (some a) c ↔ w.Due none c := by
  rw [due_some, due_none, h, List.mem_cons, or_comm]

theorem Sound.pop {w : Wave e} (h : Sound s origin none w) {a : Address} {ready : List Address}
    (hready : w.ready = a :: ready) : Sound s origin (some a) { w with ready } := by
  have due := due_of_ready hready
  exact { h with
    due_mem := fun c hc => h.due_mem c ((due c).mp hc)
    apart := fun c hc => (h.apart c hc).imp_left (mt (due c).mp)
    placed := fun c hc => (h.placed c hc).imp_right (Or.imp_left (due c).mpr)
    ordered := fun c off hc => h.ordered c off (hc.imp_left (due c).mp)
    again := fun c dirty done => (h.again c dirty done).imp_left (due c).mpr
    once := fun c hc changed => by
      refine (h.once c hc changed).imp_right fun ⟨off, done⟩ => ⟨off, ?_⟩
      exact done.imp_right fun ⟨busy, _⟩ => absurd busy (Option.some_ne_none c).symm }

/-- A cell whose value changes in its turn has not changed before. -/
theorem Sound.not_changed {w : Wave e} {a : Address} {f : Formula}
    (h : Sound s origin (some a) w) (hs : Linked s) (dirty : a ∈ w.dirty)
    (other : ¬ (w.sheet.value? a == some (w.sheet.worth a f)) = true) :
    a ∉ w.report.changed := by
  intro changed
  rcases h.once a (h.due_mem a (Or.inr rfl)) changed with ⟨behind, value⟩ | ⟨off, done | ⟨_, clean⟩⟩
  · refine other ?_
    rw [value, Sheet.worth_of_behind (h.linked hs) ((h.form.behind_iff a).mpr behind)]
    exact Value.fault_beq_self .cycle
  · exact h.fresh a done off dirty
  · exact clean dirty

theorem Sound.refresh_kept {w : Wave e} {a : Address} (h : Sound s origin (some a) w) (r : Report)
    (hr : r.changed = w.report.changed) :
    Sound s origin (some a) { w with report := r, dirty := w.dirty.erase a } := by
  have still {c : Address} (hc : c ∈ w.dirty.erase a) : c ∈ w.dirty := HashSet.mem_of_mem_erase hc
  exact { h with
    dirty_mem := fun c hc => h.dirty_mem c (still hc)
    fresh := fun c done off dirty => h.fresh c done off (still dirty)
    again := fun c dirty done => h.again c (still dirty) done
    once := fun c hc changed => by
      rw [hr] at changed
      rcases h.once c hc changed with cyclic | ⟨off, done | ⟨busy, clean⟩⟩
      · exact Or.inl cyclic
      · exact Or.inr ⟨off, Or.inl done⟩
      · exact Or.inr ⟨off, Or.inr ⟨busy, mt still clean⟩⟩ }

theorem Sound.refresh_changed {w v : Wave e} {a : Address} {f : Formula} {r : Report}
    (h : Sound s origin (some a) w) (hs : Linked s) (dirty : a ∈ w.dirty)
    (hf : w.sheet.formula? a = some f) (hr : r.changed = w.report.changed.push a)
    (marked : Marked (w.sheet.children a)
      { w with
        sheet := w.sheet.put a (w.sheet.worth a f)
        report := r
        dirty := w.dirty.erase a } v) :
    Sound s origin (some a) v ∧
      (a ∈ v.dirty → s.Behind a ∧ v.sheet.value? a = some (.fault .cycle)) := by
  obtain ⟨sheet, report, held, waiting, done, mem_dirty, mem_ready, -⟩ := marked
  dsimp only at sheet report held waiting done mem_dirty mem_ready
  have part : a ∈ s.downstream origin := h.due_mem a (Or.inr rfl)
  have link {c : Address} : c ∈ w.sheet.children a ↔ a ∈ s.parents c := h.mem_children hs
  have other {c : Address} (hc : c ≠ a) : v.sheet.value? c = w.sheet.value? c := by
    rw [sheet]
    exact Sheet.value?_put_of_ne _ hc _
  have cyclic (behind : s.Behind a) : v.sheet.value? a = some (.fault .cycle) := by
    rw [sheet, Sheet.worth_of_behind (h.linked hs) ((h.form.behind_iff a).mpr behind)]
    exact Sheet.value?_put_self (Sheet.mem_of_formula hf) _
  have old {c : Address} (hc : c ∈ w.dirty.erase a) : c ∈ w.dirty ∧ c ≠ a := mem_erase_iff.mp hc
  have due {c : Address} (hc : v.Due (some a) c) : w.Due (some a) c ∨ c ∈ w.done := by
    rcases hc with ready | busy
    · exact ((mem_ready c).mp ready).imp Or.inl fun ⟨_, _, k⟩ => k
    · exact Or.inl (Or.inr busy)
  have due' {c : Address} (hc : w.Due (some a) c) : v.Due (some a) c :=
    hc.imp_left fun ready => (mem_ready c).mpr (Or.inl ready)
  constructor
  · constructor
    case form =>
      exact sheet ▸ h.form.trans (Sheet.sameForm_put _ _ _)
    case due_mem =>
      intro c hc
      exact (due hc).elim (h.due_mem c) (h.done_mem c)
    case done_mem =>
      intro c hc
      exact h.done_mem c (done ▸ hc)
    case dirty_mem =>
      intro c hc
      rcases (mem_dirty c).mp hc with hc | hc
      · exact h.dirty_mem c (old hc).1
      · exact or_iff_not_imp_left.mpr (downstream_of_parent hs (Or.inr part) (link.mp hc))
    case counts =>
      intro c n hc
      rw [waiting] at hc
      simpa only [missing, done] using h.counts c n hc
    case apart =>
      intro c hc
      rw [waiting] at hc
      obtain ⟨notDue, notDone⟩ := h.apart c hc
      exact ⟨fun k => (due k).elim notDue notDone, done ▸ notDone⟩
    case held =>
      intro c hc
      exact held ▸ h.held c (waiting ▸ hc)
    case placed =>
      intro c hc
      rw [waiting, done]
      exact (h.placed c hc).imp_right (Or.imp_left due')
    case ordered =>
      intro c off hc
      rw [done] at hc ⊢
      exact h.ordered c off (hc.elim due Or.inr)
    case fresh =>
      intro c hc off k
      rw [done] at hc
      rcases (mem_dirty c).mp k with k | k
      · exact h.fresh c hc off (old k).1
      · -- a parent that is done is clean, and this one is dirty
        have before := h.ordered c off (Or.inr hc) a (link.mp k) part
        exact h.fresh a before (fun behind => off (behind.of_parent (link.mp k))) dirty
    case again =>
      intro c hc k
      rw [done] at k
      by_cases stale : c ∈ w.dirty.erase a
      · refine (h.again c (old stale).1 k).imp due' (And.imp_right fun value => ?_)
        rw [other (old stale).2, value]
      · have child := ((mem_dirty c).mp hc).resolve_left stale
        exact Or.inl (Or.inl ((mem_ready c).mpr (Or.inr ⟨child, stale, k⟩)))
    case once =>
      intro c hc changed
      rw [report, hr, Array.mem_push] at changed
      by_cases same : c = a
      · subst same
        -- only a cell that reads itself can mark itself dirty again
        by_cases behind : s.Behind c
        · exact Or.inl ⟨behind, cyclic behind⟩
        · refine Or.inr ⟨behind, Or.inr ⟨rfl, ?_⟩⟩
          intro k
          rcases (mem_dirty c).mp k with k | k
          · exact (old k).2 rfl
          · exact Sheet.not_mem_parents_self behind (link.mp k)
      · rcases h.once c hc (changed.resolve_right same) with ⟨behind, value⟩ | ⟨off, k | ⟨busy, _⟩⟩
        · exact Or.inl ⟨behind, (other same).trans value⟩
        · exact Or.inr ⟨off, Or.inl (done ▸ k)⟩
        · exact absurd (Option.some.inj busy).symm same
  · intro hc
    rcases (mem_dirty a).mp hc with hc | hc
    · exact absurd rfl (old hc).2
    · have behind : s.Behind a := Sheet.DependsOn.behind (.single (link.mp hc))
      exact ⟨behind, cyclic behind⟩

theorem missing_insert (hs : Linked s) {w : Wave e} {a : Address} (part : a ∈ s.downstream origin)
    (h : a ∉ w.done) (c : Address) :
    missing s origin w c =
      missing s origin { w with done := w.done.insert a } c + if a ∈ s.parents c then 1 else 0 := by
  have distinct := hs.nodup_parents c
  unfold missing
  generalize s.parents c = ps at distinct
  induction ps with
  | nil => rfl
  | cons p ps ih =>
    obtain ⟨new, distinct⟩ := List.nodup_cons.mp distinct
    rw [List.countP_cons, List.countP_cons, ih distinct]
    by_cases same : a = p
    · subst same
      simp [part, h, new]
    · simp [HashSet.mem_insert, same]
      omega

/-- A child that waits for one more parent waits for the cell whose turn it is. -/
theorem Sound.done_of_last {w : Wave e} {a c : Address} {n : Nat} (h : Sound s origin (some a) w)
    (hs : Linked s) (new : a ∉ w.done) (child : c ∈ w.sheet.children a)
    (waits : w.waiting[c]? = some n) (last : n ≤ 1) :
    ∀ p ∈ s.parents c, p ∈ s.downstream origin → p = a ∨ p ∈ w.done := by
  obtain ⟨-, pos, count⟩ := h.counts c n waits
  have rest := missing_insert hs (h.due_mem a (Or.inr rfl)) new c
  rw [if_pos ((h.mem_children hs).mp child)] at rest
  have none : missing s origin { w with done := w.done.insert a } c = 0 := by omega
  intro p hp part
  have done := missing_eq_zero.mp none p hp part
  rwa [HashSet.mem_insert, beq_iff_eq, eq_comm] at done

theorem Sound.finish_again {w : Wave e} {a : Address} (h : Sound s origin (some a) w)
    (spent : a ∈ w.dirty → s.Behind a ∧ w.sheet.value? a = some (.fault .cycle))
    (done : a ∈ w.done) : Sound s origin none w := by
  have due {c : Address} (hc : w.Due none c) : w.Due (some a) c :=
    due_some.mpr (Or.inl (due_none.mp hc))
  have due' {c : Address} (hc : w.Due (some a) c) : w.Due none c ∨ c = a :=
    (due_some.mp hc).imp_left due_none.mpr
  exact { h with
    due_mem := fun c hc => h.due_mem c (due hc)
    apart := fun c hc => (h.apart c hc).imp_left (mt due)
    placed := fun c hc => by
      rcases h.placed c hc with waits | hc | k
      · exact Or.inl waits
      · rcases due' hc with hc | rfl
        · exact Or.inr (Or.inl hc)
        · exact Or.inr (Or.inr done)
      · exact Or.inr (Or.inr k)
    ordered := fun c off hc => h.ordered c off (hc.imp_left due)
    again := fun c hc k => by
      rcases h.again c hc k with hd | cyclic
      · rcases due' hd with hd | rfl
        · exact Or.inl hd
        · exact Or.inr (spent hc)
      · exact Or.inr cyclic
    once := fun c hc changed => by
      refine (h.once c hc changed).imp_right (And.imp_right fun k => Or.inl ?_)
      exact k.elim id fun ⟨busy, _⟩ => Option.some.inj busy ▸ done }

theorem Sound.finish_first {w v : Wave e} {a : Address} (h : Sound s origin (some a) w)
    (hs : Linked s) (spent : a ∈ w.dirty → s.Behind a ∧ w.sheet.value? a = some (.fault .cycle))
    (new : a ∉ w.done)
    (counted : CountedDown (w.sheet.children a) { w with done := w.done.insert a } v) :
    Sound s origin none v := by
  obtain ⟨sheet, report, held, dirty, done, told, others, mem_ready, -⟩ := counted
  dsimp only at sheet report held dirty done told others mem_ready
  have part : a ∈ s.downstream origin := h.due_mem a (Or.inr rfl)
  have link {c : Address} : c ∈ w.sheet.children a ↔ a ∈ s.parents c := h.mem_children hs
  have mem_done {c : Address} : c ∈ v.done ↔ c = a ∨ c ∈ w.done := by
    rw [done, HashSet.mem_insert, beq_iff_eq, eq_comm]
  have missing_eq (c : Address) : missing s origin w c =
      missing s origin v c + if a ∈ s.parents c then 1 else 0 := by
    rw [missing_insert hs part new]
    simp only [missing, done]
  have waited {c : Address} {n : Nat} (hc : v.waiting[c]? = some n) :
      w.waiting[c]? = some (n + if a ∈ s.parents c then 1 else 0) ∧ 0 < n := by
    by_cases child : c ∈ w.sheet.children a
    · rw [if_pos (link.mp child)]
      exact (told c child n).mp hc
    · rw [if_neg (mt link.mpr child)]
      have hc := others c child ▸ hc
      exact ⟨hc, (h.counts c n hc).2.1⟩
  have waits {c : Address} (hc : c ∈ v.waiting) : c ∈ w.waiting := by
    obtain ⟨n, hn⟩ := waits_iff.mp hc
    exact waits_iff.mpr ⟨_, (waited hn).1⟩
  constructor
  case form =>
    exact sheet ▸ h.form
  case due_mem =>
    intro c hc
    rcases (mem_ready c).mp (due_none.mp hc) with hc | ⟨_, n, _, hn⟩
    · exact h.due_mem c (Or.inl hc)
    · exact (h.counts c n hn).1
  case done_mem =>
    intro c hc
    exact (mem_done.mp hc).elim (fun same => same ▸ part) (h.done_mem c)
  case dirty_mem =>
    intro c hc
    exact h.dirty_mem c (dirty ▸ hc)
  case counts =>
    intro c n hc
    obtain ⟨old, pos⟩ := waited hc
    obtain ⟨hc, -, count⟩ := h.counts c _ old
    rw [missing_eq] at count
    exact ⟨hc, pos, by omega⟩
  case apart =>
    intro c hc
    obtain ⟨notDue, notDone⟩ := h.apart c (waits hc)
    constructor
    · intro k
      rcases (mem_ready c).mp (due_none.mp k) with k | ⟨child, m, small, hm⟩
      · exact notDue (Or.inl k)
      · obtain ⟨n, hn⟩ := waits_iff.mp hc
        obtain ⟨old, pos⟩ := (told c child n).mp hn
        rw [old, Option.some.injEq] at hm
        omega
    · intro k
      rcases mem_done.mp k with same | k
      · exact notDue (due_some.mpr (Or.inr same))
      · exact notDone k
  case held =>
    intro c hc
    exact held ▸ h.held c (waits hc)
  case placed =>
    intro c hc
    rcases h.placed c hc with waits | hc | k
    · obtain ⟨n, hn⟩ := waits_iff.mp waits
      -- a child that is counted down to nothing moves on to the ready cells
      by_cases child : c ∈ w.sheet.children a
      · by_cases last : n ≤ 1
        · exact Or.inr (Or.inl (Or.inl ((mem_ready c).mpr (Or.inr ⟨child, n, last, hn⟩))))
        · have : v.waiting[c]? = some (n - 1) :=
            (told c child (n - 1)).mpr ⟨by rw [hn, Nat.sub_add_cancel (by omega)], by omega⟩
          exact Or.inl (waits_iff.mpr ⟨n - 1, this⟩)
      · exact Or.inl (waits_iff.mpr ⟨n, (others c child).trans hn⟩)
    · rcases due_some.mp hc with ready | same
      · exact Or.inr (Or.inl (Or.inl ((mem_ready c).mpr (Or.inl ready))))
      · exact Or.inr (Or.inr (mem_done.mpr (Or.inl same)))
    · exact Or.inr (Or.inr (mem_done.mpr (Or.inr k)))
  case ordered =>
    intro c off hc p hp part'
    rw [mem_done]
    rcases hc with due | k
    · rcases (mem_ready c).mp (due_none.mp due) with ready | ⟨child, n, last, hn⟩
      · exact Or.inr (h.ordered c off (Or.inl (Or.inl ready)) p hp part')
      · exact h.done_of_last hs new child hn last p hp part'
    · rcases mem_done.mp k with rfl | k
      · exact Or.inr (h.ordered c off (Or.inl (Or.inr rfl)) p hp part')
      · exact Or.inr (h.ordered c off (Or.inr k) p hp part')
  case fresh =>
    intro c hc off k
    rw [dirty] at k
    rcases mem_done.mp hc with rfl | hc
    · exact off (spent k).1
    · exact h.fresh c hc off k
  case again =>
    intro c hc k
    rw [dirty] at hc
    rw [sheet]
    rcases mem_done.mp k with rfl | k
    · exact Or.inr (spent hc)
    · rcases h.again c hc k with (ready | busy) | cyclic
      · exact Or.inl (Or.inl ((mem_ready c).mpr (Or.inl ready)))
      · exact absurd (Option.some.inj busy ▸ k) new
      · exact Or.inr cyclic
  case once =>
    intro c hc changed
    rw [report] at changed
    rw [sheet]
    refine (h.once c hc changed).imp_right (And.imp_right fun k => Or.inl (mem_done.mpr ?_))
    exact k.elim Or.inr fun ⟨busy, _⟩ => Or.inl (Option.some.inj busy).symm

theorem Sound.waiting_parent {w : Wave e} (h : Sound s origin none w) (idle : w.ready = [])
    {a : Address} (ha : a ∈ w.waiting) :
    ∃ p ∈ s.parents a, p ∈ s.downstream origin ∧ p ∈ w.waiting := by
  obtain ⟨n, hn⟩ := waits_iff.mp ha
  obtain ⟨-, pos, count⟩ := h.counts a n hn
  obtain ⟨p, hp, missed⟩ := List.countP_pos_iff.mp (count ▸ pos)
  obtain ⟨part, notDone⟩ := decide_eq_true_eq.mp missed
  refine ⟨p, hp, part, ?_⟩
  rcases h.placed p part with waits | due | done
  · exact waits
  · exact absurd (idle ▸ due_none.mp due) List.not_mem_nil
  · exact absurd done notDone

/-- Cells that wait when no cell is ready wait for each other. -/
theorem Sound.behind_of_waiting {w : Wave e} (h : Sound s origin none w) (idle : w.ready = [])
    {a : Address} (ha : a ∈ w.waiting) : s.Behind a := by
  refine Sheet.behind_of_endless (S := (· ∈ w.waiting)) ?_ ha
  intro c hc
  obtain ⟨p, hp, -, waits⟩ := h.waiting_parent idle hc
  exact ⟨p, hp, waits⟩

theorem Sound.release {w : Wave e} (h : Sound s origin none w) (idle : w.ready = []) {a : Address}
    {held : List Address} (ha : a ∈ w.waiting)
    (others : ∀ c ∈ w.waiting, c ∈ w.held → c = a ∨ c ∈ held) :
    Sound s origin none { w with ready := [a], held, waiting := w.waiting.erase a } := by
  have old {c : Address} (hc : c ∈ w.waiting.erase a) : c ∈ w.waiting ∧ c ≠ a := by
    obtain ⟨ne, hc⟩ := HashMap.mem_erase.mp hc
    exact ⟨hc, fun same => absurd same.symm (by simpa using ne)⟩
  have due {c : Address} (hc : Due { w with ready := [a] } none c) : c = a :=
    List.mem_singleton.mp (due_none.mp hc)
  obtain ⟨n, hn⟩ := waits_iff.mp ha
  have notDue {c : Address} (hc : w.Due none c) : False :=
    List.not_mem_nil (idle ▸ due_none.mp hc)
  exact { h with
    due_mem := fun c hc => due hc ▸ (h.counts a n hn).1
    counts := fun c n hc => by
      rw [HashMap.getElem?_erase] at hc
      split at hc
      · exact absurd hc (Option.some_ne_none n).symm
      · exact h.counts c n hc
    apart := fun c hc => ⟨fun k => (old hc).2 (due k), (h.apart c (old hc).1).2⟩
    held := fun c hc => (others c (old hc).1 (h.held c (old hc).1)).resolve_left (old hc).2
    placed := fun c hc => by
      rcases h.placed c hc with waits | hd | done
      · by_cases same : c = a
        · exact Or.inr (Or.inl (Or.inl (List.mem_singleton.mpr same)))
        · exact Or.inl (HashMap.mem_erase.mpr ⟨by simpa using Ne.symm same, waits⟩)
      · exact (notDue hd).elim
      · exact Or.inr (Or.inr done)
    ordered := fun c off hc => by
      rcases hc with hd | done
      · exact absurd (h.behind_of_waiting idle (due hd ▸ ha)) off
      · exact h.ordered c off (Or.inr done)
    again := fun c dirty done => (h.again c dirty done).imp_left fun hd => (notDue hd).elim }

end ReactiveSheet.Wave
