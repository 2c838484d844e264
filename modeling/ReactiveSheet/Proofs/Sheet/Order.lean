import ReactiveSheet.Proofs.Sheet.Statistics

/-!
In a settled sheet each dependent is recomputed once at most, parents first.

A cell is tangled if it is behind a cycle of cells that all take part in the wave. Only tangled
cells are ever released, and if they hold the cycle fault from the start they do not change. So
every change is made by a cell that has its turn after all parents that can change, and no cell
that has had its turn is dirty afterwards: `Orderly`. The cells that are tangled in the wave of an
edit were behind a cycle before it, because an edit changes no links among the dependents of its
target.
-/

namespace ReactiveSheet

open ReactiveSheet.Graph (OnCycle)

namespace Sheet

variable {e : Extent} {s t : Sheet e} {origin a c p : Address}

def partners (s : Sheet e) (origin c : Address) : List Address :=
  if c ∈ s.downstream origin then (s.parents c).filter (· ∈ s.downstream origin) else []

theorem mem_partners : p ∈ s.partners origin c ↔
    c ∈ s.downstream origin ∧ p ∈ s.parents c ∧ p ∈ s.downstream origin := by
  unfold partners
  split
  · rename_i part
    rw [List.mem_filter, decide_eq_true_eq]
    exact ⟨fun h => ⟨part, h⟩, And.right⟩
  · rename_i apart
    exact ⟨fun h => absurd h List.not_mem_nil, fun h => absurd h.1 apart⟩

/-- The cell is behind a cycle of cells that take part, and so is all that leads there. -/
def Tangled (s : Sheet e) (origin c : Address) : Prop := Graph.Behind (s.partners origin) c

theorem tangled_of_endless {S : Address → Prop}
    (endless : ∀ c, S c → ∃ p ∈ s.partners origin c, S p) (hc : S c) : s.Tangled origin c := by
  refine Graph.behind_of_endless (s.finite_parents.subset ?_) endless hc
  intro c some none
  obtain ⟨p, hp⟩ := List.exists_mem_of_ne_nil _ some
  exact List.not_mem_nil (none ▸ (mem_partners.mp hp).2.1)

theorem Tangled.part (h : s.Tangled origin c) : c ∈ s.downstream origin := by
  obtain ⟨p, hp, -⟩ := Graph.behind_iff.mp h
  exact (mem_partners.mp hp).1

theorem tangled_of_mem_partners (h : c ∈ s.partners origin c) : s.Tangled origin c :=
  OnCycle.behind (.single h)

theorem Tangled.behind (h : s.Tangled origin c)
    (same : ∀ c ∈ s.downstream origin, t.parents c = s.parents c) : t.Behind c := by
  refine Graph.Behind.mono (fun c p hp => ?_) h
  obtain ⟨part, link, -⟩ := mem_partners.mp hp
  exact same c part ▸ link

end Sheet

namespace Wave

open Std (HashMap HashSet)
open Sheet (Linked mem_partners)

variable {e : Extent} {s : Sheet e} {origin a c : Address} {w u : Wave e}

theorem Sound.tangled_of_waiting (h : Sound s origin none w) (idle : w.ready = [])
    (ha : a ∈ w.waiting) : s.Tangled origin a := by
  refine Sheet.tangled_of_endless (S := (· ∈ w.waiting)) ?_ ha
  intro c hc
  obtain ⟨n, hn⟩ := waits_iff.mp hc
  obtain ⟨p, link, part, waits⟩ := h.waiting_parent idle hc
  exact ⟨p, mem_partners.mpr ⟨(h.counts c n hn).1, link, part⟩, waits⟩

/-- Tangled cells hold the fault, the others have their turns after their parents, and no cell that
has had its turn is dirty. -/
structure Orderly (s : Sheet e) (origin : Address) (w : Wave e) : Prop where
  fault : ∀ c, s.Tangled origin c → w.sheet.value? c = some (.fault .cycle)
  ordered : ∀ c, c ∈ w.ready ∨ c ∈ w.done →
    ∀ p ∈ s.partners origin c, ¬ s.Tangled origin p → p ∈ w.done
  fresh : ∀ c ∈ w.done, c ∉ w.dirty
  distinct : w.report.recomputed.toList.Nodup

theorem Orderly.distinct_push (orderly : Orderly s origin w) (counted : Counted s w)
    (stale : a ∈ w.dirty) (noted : Noted s a w u) : u.report.recomputed.toList.Nodup := by
  rw [noted.recomputed, Array.toList_push]
  refine orderly.distinct.append (List.nodup_singleton a) ?_
  intro c hc same
  rw [List.mem_singleton.mp same] at hc
  exact orderly.fresh a (counted.visited a (Array.mem_toList_iff.mp hc)) stale

theorem Orderly.not_tangled {f : Formula} (orderly : Orderly s origin w)
    (sound : Sound s origin none w) (hs : Linked s)
    (other : ¬ (w.sheet.value? a == some (w.sheet.worth a f)) = true) :
    ¬ s.Tangled origin a := by
  intro tangled
  refine other ?_
  have behind : w.sheet.Behind a := (sound.form.behind_iff a).mpr (tangled.behind fun _ _ => rfl)
  rw [orderly.fault a tangled, Sheet.worth_of_behind (sound.linked hs) behind]
  exact Value.fault_beq_self .cycle

theorem Orderly.ordered_turn (orderly : Orderly s origin w) (turned : Turned s origin w a u) :
    ∀ c, c ∈ u.ready ∨ c ∈ u.done →
      ∀ p ∈ s.partners origin c, ¬ s.Tangled origin p → p ∈ u.done := by
  intro c hc p hp free
  have old (k : c ∈ w.ready ∨ c ∈ w.done) : p ∈ u.done :=
    (turned.done p).mpr (Or.inr (orderly.ordered c k p hp free))
  rcases hc with ready | done
  · rcases turned.ready c ready with ready | done | all
    · exact old (Or.inl ready)
    · exact old (Or.inr done)
    · obtain ⟨-, link, part⟩ := mem_partners.mp hp
      exact all p link part
  · rcases (turned.done c).mp done with rfl | done
    · exact old (Or.inl turned.due)
    · exact old (Or.inr done)

theorem Orderly.turn (orderly : Orderly s origin w) (counted : Counted s w)
    (sound : Sound s origin none w) (hs : Linked s) (turned : Turned s origin w a u) :
    Orderly s origin u := by
  have ordered := orderly.ordered_turn turned
  cases turned.effect with
  | clean clean sheet report dirty =>
    refine ⟨sheet ▸ orderly.fault, ordered, ?_, report ▸ orderly.distinct⟩
    intro c hc k
    rw [dirty] at k
    rcases (turned.done c).mp hc with rfl | done
    · exact clean k
    · exact orderly.fresh c done k
  | kept stale sheet noted _ dirty =>
    refine ⟨sheet ▸ orderly.fault, ordered, ?_, orderly.distinct_push counted stale noted⟩
    intro c hc k
    obtain ⟨k, ne⟩ := (dirty c).mp k
    exact orderly.fresh c (((turned.done c).mp hc).resolve_left ne) k
  | changed stale _ _ other sheet noted _ dirty _ =>
    have free := orderly.not_tangled sound hs other
    refine ⟨?_, ordered, ?_, orderly.distinct_push counted stale noted⟩
    · intro c tangled
      have ne : c ≠ a := fun same => free (same ▸ tangled)
      rw [sheet, Sheet.value?_put_of_ne _ ne]
      exact orderly.fault c tangled
    · intro c hc k
      rcases (turned.done c).mp hc with rfl | done
      · rcases (dirty c).mp k with ⟨-, ne⟩ | link
        · exact ne rfl
        · have loop := mem_partners.mpr ⟨turned.part, link, turned.part⟩
          exact free (Sheet.tangled_of_mem_partners loop)
      · rcases (dirty c).mp k with ⟨k, -⟩ | link
        · exact orderly.fresh c done k
        · -- the changing cell has had its turn before its child, so it is not dirty
          have partner := mem_partners.mpr ⟨sound.done_mem c done, link, turned.part⟩
          exact orderly.fresh a (orderly.ordered c (Or.inr done) a partner free) stale

theorem Orderly.release {held : List Address} (orderly : Orderly s origin w)
    (sound : Sound s origin none w) (idle : w.ready = []) :
    Orderly s origin { w with ready := [a], held, waiting := w.waiting.erase a } := by
  refine { orderly with ordered := ?_ }
  intro c hc p hp free
  rcases hc with ready | done
  · obtain ⟨-, -, part⟩ := mem_partners.mp hp
    rcases sound.placed p part with waits | due | done
    · exact absurd (sound.tangled_of_waiting idle waits) free
    · exact absurd (idle ▸ due_none.mp due) List.not_mem_nil
    · exact done
  · exact orderly.ordered c (Or.inr done) p hp free

theorem orderly_start {r : Report} (fresh : r.recomputed = #[])
    (fault : ∀ c, s.Tangled origin c → s.value? c = some (.fault .cycle)) :
    Orderly s origin (start s origin r) := by
  constructor
  case fault =>
    exact fault
  case ordered =>
    intro c hc p hp _
    obtain ⟨-, link, part⟩ := mem_partners.mp hp
    rcases hc with ready | done
    · exact missing_eq_zero.mp (mem_ready_start.mp ready).2 p link part
    · exact absurd done HashSet.not_mem_empty
  case fresh =>
    exact fun c hc => absurd hc HashSet.not_mem_empty
  case distinct =>
    change r.recomputed.toList.Nodup
    rw [fresh]
    exact List.nodup_nil

theorem Orderly.run (orderly : Orderly s origin w) (counted : Counted s w)
    (sound : Sound s origin none w) (hs : Linked s) (n : Nat) : Orderly s origin (w.run n) := by
  refine (sound.run_lasting (J := fun w => Counted s w ∧ Orderly s origin w) hs
    ⟨counted, orderly⟩ ?_ ?_ n).2
  · intro w a u sound turned ⟨counted, orderly⟩
    exact ⟨counted.turn sound hs turned, orderly.turn counted sound hs turned⟩
  · intro w a held sound idle _ ⟨counted, orderly⟩
    exact ⟨{ counted with }, orderly.release sound idle⟩

end Wave

namespace Sheet

variable {e : Extent} {s t : Sheet e} {a c p : Address} {edit : Edit} {r : Report}

/-- Cells that are tangled in the wave of an edit of a settled sheet hold the fault already. -/
theorem Launched.eq_cycle_of_tangled {w : Wave e} (h : Launched s a edit w) (settled : Settled s)
    (inside : ∀ p ∈ readBy edit.formula?, p ∈ e) (tangled : w.sheet.Tangled a c) :
    w.sheet.value? c = some (.fault .cycle) := by
  have other {c : Address} (hc : c ∈ w.sheet.downstream a) : c ≠ a :=
    ((mem_downstream h.linked).mp hc).1
  rw [h.values c (other tangled.part)]
  refine settled.eq_cycle (tangled.behind fun c hc => ?_)
  exact (h.parents settled.linked inside (other hc)).symm

theorem distinct_recomputed (settled : Settled s) (h : s.edit a edit = .ok (t, r)) :
    r.recomputed.toList.Nodup := by
  obtain ⟨ha, inside, ⟨-, -, rfl⟩ | ⟨w, hw, rfl, rfl⟩⟩ := edit_eq_waveOf h
  · rw [recomputed_noteBy]
    exact List.nodup_nil
  · have launched := launched settled.linked ha inside hw
    have orderly : Wave.Orderly w.sheet a w := by
      have := Wave.orderly_start (r := w.report) launched.recomputed
        fun c => launched.eq_cycle_of_tangled settled inside
      rw [launched.start] at this ⊢
      exact this
    exact (orderly.run launched.counted launched.sound launched.linked w.budget).distinct

theorem lt_of_parent (hs : Linked s) (h : s.edit a edit = .ok (t, r)) {i j : Nat}
    (hi : r.recomputed[i]? = some p) (hj : r.recomputed[j]? = some c) (link : p ∈ t.parents c)
    (off : ¬ t.Behind c) : i < j := by
  obtain ⟨ha, inside, ⟨-, -, rfl⟩ | ⟨w, hw, rfl, rfl⟩⟩ := edit_eq_waveOf h
  · rw [recomputed_noteBy] at hi
    exact absurd hi (by simp)
  · have launched := launched hs ha inside hw
    have order := (launched.counted.run launched.sound launched.linked w.budget).order
    have form := launched.form_run w.budget
    rw [form.parents] at link
    rw [form.behind_iff] at off
    rcases Nat.lt_trichotomy i j with before | same | after
    · exact before
    · subst same
      obtain rfl := Option.some.inj (hi.symm.trans hj)
      exact absurd link (not_mem_parents_self off)
    · obtain ⟨hj', hj⟩ := Array.getElem?_eq_some_iff.mp hj
      obtain ⟨hi', hi⟩ := Array.getElem?_eq_some_iff.mp hi
      have late := List.pairwise_iff_getElem.mp order j i hj' hi' after
      rw [Array.getElem_toList, Array.getElem_toList, hi, hj] at late
      exact absurd link (late off)

/-- After a history that brings in no cycle fault, an edit recomputes no cell twice and never its
target, and a parent comes before each cell that reads it and is not behind a cycle. -/
theorem recomputed_once_in_order (e : Extent) (history : List (Address × Edit))
    (clean : ∀ x ∈ history, x.2.CycleFree) {a : Address} {edit : Edit} {t : Sheet e} {r : Report}
    (h : ((blank e).perform history).edit a edit = .ok (t, r)) :
    r.recomputed.toList.Nodup ∧ a ∉ r.recomputed ∧
      ∀ (i j : Nat) (p c : Address), r.recomputed[i]? = some p → r.recomputed[j]? = some c →
        p ∈ t.parents c → ¬ t.Behind c → i < j := by
  have settled : Settled ((blank e).perform history) := settled_perform clean
  refine ⟨distinct_recomputed settled h, ?_, fun i j p c => lt_of_parent settled.linked h⟩
  exact fun k => (((exact_edit settled.linked h).recomputed a).mp k).1 rfl

/-- A cell that reads the target is recomputed when the target changes, once and alone. -/
theorem recomputed_once_in_order_reader :
    let e : Extent := ⟨1, 2, by decide, by decide, by decide, by decide⟩
    let a : Address := ⟨0, 0⟩
    let b : Address := ⟨0, 1⟩
    ∃ t r, ((blank e).perform [(b, .formula (.reference a))]).edit a (.value (.text "new")) =
      .ok (t, r) ∧ b ∈ r.recomputed ∧ r.recomputed.toList.Nodup ∧ a ∉ r.recomputed := by
  intro e a b
  have ha : a ∈ e := by decide
  have hb : b ∈ e := by decide
  have apart : a ≠ b := by decide
  obtain ⟨s, -, -, first, go⟩ := exists_edited linked_blank (.formula (.reference a)) hb
    fun p hp => List.mem_singleton.mp hp ▸ ha
  have same : (blank e).perform [(b, .formula (.reference a))] = s := go _
  obtain ⟨t, r, h, second, -⟩ := exists_edited first.linked (.value (.text "new")) ha
    fun p hp => absurd hp List.not_mem_nil
  have clean : ∀ x ∈ [(b, Edit.formula (.reference a))], x.2.CycleFree := by
    simp [Edit.CycleFree, Formula.literals]
  have once := recomputed_once_in_order e [(b, .formula (.reference a))] clean (same ▸ h)
  have exact := exact_edit first.linked h
  have changed : a ∈ r.changed := by
    have old : s.value? a = some .empty := by
      rw [first.plain a apart ((first.formula_of_ne apart).trans (formula?_blank a)),
        value?_blank ha]
    have new : t.value? a = some (.text "new") := (holds_iff rfl).mp second.target
    apply exact.mem_changed
    rw [old, new]
    exact fun same => absurd (Value.text.inj (Option.some.inj same)) (by decide)
  have child : b ∈ t.children a := by
    rw [second.linked.mem_children, second.parents first.linked apart.symm, first.parents_target]
    exact List.mem_singleton_self a
  exact ⟨t, r, same ▸ h, (exact.recomputed b).mpr ⟨apart.symm, a, changed, child⟩, once.1, once.2.1⟩

end Sheet

end ReactiveSheet
