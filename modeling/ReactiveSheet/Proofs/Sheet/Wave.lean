import Mathlib.Data.List.TakeWhile
import ReactiveSheet.Proofs.Formula.Readings
import ReactiveSheet.Proofs.Sheet.Links

/-!
Storing and settling single cells, and what one step of a wave does.

`worth` is the value that a formula is due in a cell: the cycle fault behind a cycle, and elsewhere
what it evaluates to. Only the values of the parents count for it. A cell that has just been
settled is current: it holds what its formula is worth, or a value equal to that.

A turn has two halves. `refresh` may store a new value and mark the children, and `Refreshed` says
which of three things happens. `finish` tells the children that the cell has had its turn. Marking
touches the dirty and the ready cells only, and counting down the waiting and the ready ones.
-/

namespace ReactiveSheet

namespace Value

/-- Only numbers can be equal and yet not the same. -/
theorem eq_of_same {v w : Value} (plain : w.isNumber = false) (h : (v == w) = true) : v = w := by
  cases w with
  | number n => exact absurd plain Bool.noConfusion
  | text s =>
    cases v with
    | text s' => exact congrArg Value.text (eq_of_beq h)
    | _ => exact absurd h Bool.noConfusion
  | fault cause =>
    cases v with
    | fault other => exact congrArg Value.fault (eq_of_beq h)
    | _ => exact absurd h Bool.noConfusion

@[simp] theorem fault_beq_self (cause : Fault) : ((Value.fault cause) == .fault cause) = true :=
  beq_self_eq_true cause

end Value

namespace Sheet

variable {e : Extent}

def put (s : Sheet e) (a : Address) (v : Value) : Sheet e :=
  s.modify a fun c => { c with value := v }

theorem sameForm_put (s : Sheet e) (a : Address) (v : Value) : SameForm s (s.put a v) := by
  refine ⟨funext fun b => ?_, funext fun b => ?_, funext fun b => ?_⟩
  · rw [put, formula?_modify]
    exact ite_self _
  · rw [put, parents_modify, parents_eq]
    exact ite_self _
  · rw [put, children_modify, children_eq]
    exact ite_self _

theorem value?_put_self {s : Sheet e} {a : Address} (ha : a ∈ e) (v : Value) :
    (s.put a v).value? a = some v := by
  rw [put, value?_modify, if_pos rfl, cell?_of_mem ha]
  rfl

theorem value?_put_of_ne (s : Sheet e) {a b : Address} (h : b ≠ a) (v : Value) :
    (s.put a v).value? b = s.value? b := by
  rw [put, value?_modify, if_neg h]

theorem store_of_beq {s : Sheet e} {a : Address} {v : Value} (h : (s.value? a == some v) = true)
    (r : Report) : s.store a v r = (s, r, false) := if_pos h

theorem store_of_not_beq {s : Sheet e} {a : Address} {v : Value}
    (h : ¬ (s.value? a == some v) = true) (r : Report) :
    s.store a v r = (s.put a v, { r with changed := r.changed.push a }, true) := if_neg h

/-- What a formula is worth in a cell. -/
def worth (s : Sheet e) (a : Address) (f : Formula) : Value :=
  match s.cycleFrom? a with
  | some _ => .fault .cycle
  | none => f.evaluate s.value?

def noteCycle (s : Sheet e) (a : Address) (r : Report) : Report :=
  match s.cycleFrom? a with
  | some _ => { r with cycles := r.cycles.push a }
  | none => r

theorem settle_eq_store (s : Sheet e) (a : Address) (f : Formula) (r : Report) :
    s.settle a f r = s.store a (s.worth a f) (s.noteCycle a r) := by
  unfold settle worth noteCycle
  cases s.cycleFrom? a <;> rfl

theorem changed_noteCycle (s : Sheet e) (a : Address) (r : Report) :
    (s.noteCycle a r).changed = r.changed := by
  unfold noteCycle
  cases s.cycleFrom? a <;> rfl

variable {s t : Sheet e} {a c : Address} {f : Formula}

theorem worth_of_behind (hs : Linked s) (h : s.Behind a) : s.worth a f = .fault .cycle := by
  obtain ⟨path, hp⟩ := Option.isSome_iff_exists.mp ((isSome_cycleFrom? hs a).mpr h)
  rw [worth, hp]

theorem worth_of_not_behind (hs : Linked s) (h : ¬ s.Behind a) :
    s.worth a f = f.evaluate s.value? := by
  have none : s.cycleFrom? a = none :=
    Option.not_isSome_iff_eq_none.mp (mt (isSome_cycleFrom? hs a).mp h)
  rw [worth, none]

theorem Linked.parents_of_formula (hs : Linked s) (hf : s.formula? c = some f) :
    s.parents c = f.references := by
  rw [hs.parents_eq, hf]
  rfl

theorem worth_congr (hs : Linked s) (h : SameForm s t) (hf : s.formula? c = some f)
    (same : ¬ s.Behind c → ∀ p ∈ s.parents c, t.value? p = s.value? p) :
    t.worth c f = s.worth c f := by
  have ht : Linked t := hs.of_sameForm h
  by_cases behind : s.Behind c
  · rw [worth_of_behind hs behind, worth_of_behind ht ((h.behind_iff c).mpr behind)]
  · rw [worth_of_not_behind hs behind, worth_of_not_behind ht (mt (h.behind_iff c).mp behind)]
    exact Formula.evaluate_congr fun p hp =>
      same behind p ((hs.parents_of_formula hf).symm ▸ hp)

/-- The cell holds a value, or one equal to it. -/
def Holds (s : Sheet e) (c : Address) (v : Value) : Prop :=
  ∃ w, s.value? c = some w ∧ (w = v ∨ (w == v) = true)

def Current (s : Sheet e) (c : Address) (f : Formula) : Prop := s.Holds c (s.worth c f)

theorem holds_iff {v : Value} (plain : v.isNumber = false) :
    s.Holds c v ↔ s.value? c = some v := by
  constructor
  · rintro ⟨w, hw, rfl | same⟩
    · exact hw
    · rw [hw, Value.eq_of_same plain same]
  · intro h
    exact ⟨_, h, Or.inl rfl⟩

theorem holds_fault {cause : Fault} : s.Holds c (.fault cause) ↔ s.value? c = some (.fault cause) :=
  holds_iff rfl

theorem holds_of_beq {v : Value} (h : (s.value? a == some v) = true) : s.Holds a v := by
  cases hw : s.value? a with
  | none =>
    rw [hw] at h
    exact absurd h Bool.noConfusion
  | some w =>
    rw [hw] at h
    exact ⟨w, hw, Or.inr h⟩

theorem Holds.eq_fault {v : Value} {cause : Fault} (h : s.Holds c v)
    (k : s.value? c = some (.fault cause)) : v = .fault cause := by
  obtain ⟨w, hw, eq⟩ := h
  obtain rfl := Option.some.inj (hw.symm.trans k)
  rcases eq with rfl | same
  · rfl
  · cases v with
    | number n => exact absurd same Bool.noConfusion
    | text s => exact absurd same Bool.noConfusion
    | fault other =>
      have : cause = other := eq_of_beq same
      rw [this]

theorem Behind.formula (hs : Linked s) (h : s.Behind c) : ∃ f, s.formula? c = some f := by
  obtain ⟨p, link, -⟩ := behind_iff.mp h
  obtain ⟨f, hf, -⟩ := hs.formula_of_parent link
  exact ⟨f, hf⟩

theorem not_behind_of_formula_eq_none (hs : Linked s) (h : s.formula? c = none) :
    ¬ s.Behind c := by
  intro behind
  obtain ⟨f, hf⟩ := behind.formula hs
  exact Option.some_ne_none f (hf.symm.trans h)

theorem Current.of_behind (hs : Linked s) (behind : s.Behind c) (h : s.Current c f) :
    s.value? c = some (.fault .cycle) := by
  rw [Current, worth_of_behind hs behind] at h
  exact holds_fault.mp h

theorem current_of_behind (hs : Linked s) (behind : s.Behind c)
    (h : s.value? c = some (.fault .cycle)) : s.Current c f := by
  rw [Current, worth_of_behind hs behind]
  exact holds_fault.mpr h

theorem Current.congr (h : s.Current c f) (hs : Linked s) (form : SameForm s t)
    (hf : s.formula? c = some f) (own : t.value? c = s.value? c)
    (same : ¬ s.Behind c → ∀ p ∈ s.parents c, t.value? p = s.value? p) : t.Current c f := by
  obtain ⟨w, hw, eq⟩ := h
  refine ⟨w, own.trans hw, ?_⟩
  rwa [worth_congr hs form hf same]

theorem not_mem_parents_self (off : ¬ s.Behind c) : c ∉ s.parents c :=
  fun link => off (DependsOn.behind (.single link))

theorem mem_of_formula (hf : s.formula? c = some f) : c ∈ e := by
  by_contra outside
  rw [formula?_of_not_mem outside] at hf
  exact Option.some_ne_none f hf.symm

theorem current_put (hs : Linked s) (hf : s.formula? a = some f) :
    (s.put a (s.worth a f)).Current a f := by
  refine ⟨_, value?_put_self (mem_of_formula hf) _, Or.inl ?_⟩
  refine (worth_congr hs (sameForm_put s a _) hf fun off p link => ?_).symm
  have : p ≠ a := fun same => not_mem_parents_self off (same ▸ link)
  exact value?_put_of_ne s this _

end Sheet

namespace Wave

open Std (HashMap HashSet)

variable {e : Extent}

structure Marked (l : List Address) (w v : Wave e) : Prop where
  sheet : v.sheet = w.sheet
  report : v.report = w.report
  held : v.held = w.held
  waiting : v.waiting = w.waiting
  done : v.done = w.done
  dirty : ∀ c, c ∈ v.dirty ↔ c ∈ w.dirty ∨ c ∈ l
  ready : ∀ c, c ∈ v.ready ↔ c ∈ w.ready ∨ (c ∈ l ∧ c ∉ w.dirty ∧ c ∈ w.done)
  room : v.ready.length ≤ w.ready.length + l.length

theorem marked_mark (w : Wave e) (a : Address) : Marked [a] w (w.mark a) := by
  unfold mark
  by_cases dirty : a ∈ w.dirty
  · rw [if_pos (HashSet.contains_iff_mem.mpr dirty)]
    refine ⟨rfl, rfl, rfl, rfl, rfl, ?_, ?_, Nat.le_add_right _ _⟩
    · intro c
      rw [List.mem_singleton]
      exact ⟨Or.inl, fun h => h.elim id fun same => same ▸ dirty⟩
    · intro c
      rw [List.mem_singleton]
      exact ⟨Or.inl, fun h => h.elim id fun ⟨same, clean, _⟩ => absurd (same ▸ dirty) clean⟩
  · rw [if_neg (mt HashSet.contains_iff_mem.mp dirty)]
    refine ⟨rfl, rfl, rfl, rfl, rfl, ?_, ?_, ?_⟩
    · intro c
      rw [HashSet.mem_insert, beq_iff_eq, List.mem_singleton, or_comm, eq_comm]
    · intro c
      dsimp only
      by_cases done : a ∈ w.done
      · rw [if_pos (HashSet.contains_iff_mem.mpr done), List.mem_cons, List.mem_singleton, or_comm]
        exact or_congr_right ⟨fun same => ⟨same, same ▸ dirty, same ▸ done⟩, And.left⟩
      · rw [if_neg (mt HashSet.contains_iff_mem.mp done), List.mem_singleton]
        exact ⟨Or.inl, fun h => h.elim id fun ⟨same, _, given⟩ => absurd (same ▸ given) done⟩
    · dsimp only
      split
      · rfl
      · exact Nat.le_add_right _ _

theorem marked_foldl (l : List Address) (w : Wave e) : Marked l w (l.foldl mark w) := by
  induction l generalizing w with
  | nil => exact ⟨rfl, rfl, rfl, rfl, rfl, by simp, by simp, le_rfl⟩
  | cons a l ih =>
    have one := marked_mark w a
    have rest := ih (w.mark a)
    refine ⟨rest.sheet.trans one.sheet, rest.report.trans one.report, rest.held.trans one.held,
      rest.waiting.trans one.waiting, rest.done.trans one.done, ?_, ?_, ?_⟩
    · intro c
      rw [List.foldl_cons, rest.dirty, one.dirty, List.mem_singleton, List.mem_cons, or_assoc]
    · intro c
      rw [List.foldl_cons, rest.ready, one.ready, one.dirty, one.done, List.mem_singleton,
        List.mem_cons]
      tauto
    · have := one.room
      have := rest.room
      simp only [List.foldl_cons, List.length_cons, List.length_nil] at *
      omega

structure CountedDown (l : List Address) (w v : Wave e) : Prop where
  sheet : v.sheet = w.sheet
  report : v.report = w.report
  held : v.held = w.held
  dirty : v.dirty = w.dirty
  done : v.done = w.done
  told : ∀ c ∈ l, ∀ n, v.waiting[c]? = some n ↔ w.waiting[c]? = some (n + 1) ∧ 0 < n
  others : ∀ c ∉ l, v.waiting[c]? = w.waiting[c]?
  ready : ∀ c, c ∈ v.ready ↔ c ∈ w.ready ∨ (c ∈ l ∧ ∃ n ≤ 1, w.waiting[c]? = some n)
  room : 2 * v.waiting.size + v.ready.length ≤ 2 * w.waiting.size + w.ready.length

theorem waits_iff {w : Wave e} {c : Address} : c ∈ w.waiting ↔ ∃ n, w.waiting[c]? = some n := by
  rw [HashMap.mem_iff_isSome_getElem?, Option.isSome_iff_exists]

theorem size_erase_of_mem {m : HashMap Address Nat} {a : Address} (h : a ∈ m) :
    (m.erase a).size + 1 = m.size := by
  have nonempty : m.size ≠ 0 := fun zero => by
    have empty : m.isEmpty := by rw [HashMap.isEmpty_eq_size_eq_zero, zero, beq_self_eq_true]
    exact HashMap.not_mem_of_isEmpty empty h
  rw [HashMap.size_erase, if_pos h]
  omega

theorem countedDown_countDown (w : Wave e) (a : Address) : CountedDown [a] w (w.countDown a) := by
  unfold countDown
  cases found : w.waiting[a]? with
  | none =>
    refine ⟨rfl, rfl, rfl, rfl, rfl, ?_, fun c _ => rfl, ?_, le_rfl⟩
    · intro c hc n
      rw [List.mem_singleton.mp hc, found]
      simp
    · intro c
      refine ⟨Or.inl, fun h => h.elim id ?_⟩
      rintro ⟨hc, n, _, given⟩
      rw [List.mem_singleton.mp hc, found] at given
      exact absurd given (Option.some_ne_none n).symm
  | some m =>
    have mem : a ∈ w.waiting := waits_iff.mpr ⟨m, found⟩
    by_cases last : m ≤ 1
    · simp only [if_pos last]
      refine ⟨rfl, rfl, rfl, rfl, rfl, ?_, ?_, ?_, ?_⟩
      · intro c hc n
        rw [List.mem_singleton.mp hc, found, HashMap.getElem?_erase_self]
        simp only [reduceCtorEq, Option.some.injEq, false_iff]
        omega
      · intro c hc
        rw [HashMap.getElem?_erase, if_neg (mt eq_of_beq (Ne.symm (mt List.mem_singleton.mpr hc)))]
      · intro c
        rw [List.mem_cons, List.mem_singleton, or_comm]
        refine or_congr_right ⟨fun same => ⟨same, m, last, same ▸ found⟩, And.left⟩
      · have := size_erase_of_mem mem
        simp only [List.length_cons]
        omega
    · simp only [if_neg last]
      refine ⟨rfl, rfl, rfl, rfl, rfl, ?_, ?_, ?_, ?_⟩
      · intro c hc n
        rw [List.mem_singleton.mp hc, found, HashMap.getElem?_insert_self]
        simp only [Option.some.injEq]
        omega
      · intro c hc
        rw [HashMap.getElem?_insert, if_neg (mt eq_of_beq (Ne.symm (mt List.mem_singleton.mpr hc)))]
      · intro c
        refine ⟨Or.inl, fun h => h.elim id ?_⟩
        rintro ⟨hc, n, small, given⟩
        rw [List.mem_singleton.mp hc, found, Option.some.injEq] at given
        omega
      · rw [HashMap.size_insert, if_pos mem]

theorem countedDown_foldl {l : List Address} (distinct : l.Nodup) (w : Wave e) :
    CountedDown l w (l.foldl countDown w) := by
  induction l generalizing w with
  | nil => exact ⟨rfl, rfl, rfl, rfl, rfl, by simp, by simp, by simp, le_rfl⟩
  | cons a l ih =>
    obtain ⟨new, distinct⟩ := List.nodup_cons.mp distinct
    have one := countedDown_countDown w a
    have rest := ih distinct (w.countDown a)
    have apart {c : Address} (hc : c ∈ l) : c ∉ [a] := fun same =>
      new (List.mem_singleton.mp same ▸ hc)
    refine ⟨rest.sheet.trans one.sheet, rest.report.trans one.report, rest.held.trans one.held,
      rest.dirty.trans one.dirty, rest.done.trans one.done, ?_, ?_,
      ?_, rest.room.trans one.room⟩
    · intro c hc n
      rw [List.foldl_cons]
      rcases List.mem_cons.mp hc with rfl | hc
      · rw [rest.others c new, one.told c List.mem_cons_self]
      · rw [rest.told c hc, one.others c (apart hc)]
    · intro c hc
      rw [List.mem_cons, not_or] at hc
      rw [List.foldl_cons, rest.others c hc.2, one.others c (mt List.mem_singleton.mp hc.1)]
    · intro c
      rw [List.foldl_cons, rest.ready, one.ready, or_assoc]
      refine or_congr_right ?_
      by_cases hc : c ∈ l
      · simp [hc, one.others c (apart hc)]
      · simp [hc]

theorem mem_erase_iff {dirty : HashSet Address} {a c : Address} :
    c ∈ dirty.erase a ↔ c ∈ dirty ∧ c ≠ a := by
  rw [HashSet.mem_erase, beq_eq_false_iff_ne, and_comm, ne_comm]

def finish (w : Wave e) (a : Address) : Wave e :=
  if w.done.contains a then w
  else (w.sheet.children a).foldl countDown { w with done := w.done.insert a }

theorem finish_of_done {w : Wave e} {a : Address} (h : a ∈ w.done) : w.finish a = w :=
  if_pos (HashSet.contains_iff_mem.mpr h)

theorem countedDown_finish {w : Wave e} (linked : Sheet.Linked w.sheet) {a : Address}
    (h : a ∉ w.done) :
    CountedDown (w.sheet.children a) { w with done := w.done.insert a } (w.finish a) := by
  rw [finish, if_neg (mt HashSet.contains_iff_mem.mp h)]
  exact countedDown_foldl (linked.nodup_children a) _

/-- The cell was not dirty, or it has been found to hold the right value already, or it has been
given another one. -/
inductive Refreshed (w : Wave e) (a : Address) : Wave e → Prop where
  | clean (h : a ∉ w.dirty) : Refreshed w a w
  | kept {f : Formula} (h : a ∈ w.dirty) (hf : w.sheet.formula? a = some f)
      (same : (w.sheet.value? a == some (w.sheet.worth a f)) = true) (r : Report)
      (hr : r.changed = w.report.changed) :
      Refreshed w a { w with report := r, dirty := w.dirty.erase a }
  | changed {f : Formula} {v : Wave e} (h : a ∈ w.dirty) (hf : w.sheet.formula? a = some f)
      (other : ¬ (w.sheet.value? a == some (w.sheet.worth a f)) = true) (r : Report)
      (hr : r.changed = w.report.changed.push a)
      (marked : Marked (w.sheet.children a)
        { w with
          sheet := w.sheet.put a (w.sheet.worth a f)
          report := r
          dirty := w.dirty.erase a } v) : Refreshed w a v

theorem Refreshed.done {w v : Wave e} {a : Address} (h : Refreshed w a v) : v.done = w.done := by
  cases h with
  | clean => rfl
  | kept => rfl
  | changed _ _ _ _ _ marked => exact marked.done

theorem Refreshed.waiting {w v : Wave e} {a : Address} (h : Refreshed w a v) :
    v.waiting = w.waiting := by
  cases h with
  | clean => rfl
  | kept => rfl
  | changed _ _ _ _ _ marked => exact marked.waiting

theorem refreshed_refresh {w : Wave e} {a : Address} {f : Formula}
    (hf : w.sheet.formula? a = some f) : Refreshed w a (w.refresh a) := by
  by_cases h : a ∈ w.dirty
  · rw [refresh, if_pos (HashSet.contains_iff_mem.mpr h), Sheet.recompute, hf]
    simp only [Sheet.settle_eq_store]
    have hr := Sheet.changed_noteCycle w.sheet a
      { w.report with recomputed := w.report.recomputed.push a }
    generalize w.sheet.noteCycle a _ = r at hr ⊢
    by_cases same : (w.sheet.value? a == some (w.sheet.worth a f)) = true
    · rw [Sheet.store_of_beq same]
      exact .kept h hf same r hr
    · rw [Sheet.store_of_not_beq same]
      refine .changed h hf same { r with changed := r.changed.push a } (congrArg (·.push a) hr) ?_
      rw [← (Sheet.sameForm_put w.sheet a (w.sheet.worth a f)).children]
      exact marked_foldl _ _
  · rw [refresh, if_neg (mt HashSet.contains_iff_mem.mp h)]
    exact .clean h

/-- A step is a turn or, when there is nothing ready, a release. -/
inductive Stepped (w : Wave e) : Wave e → Prop where
  | turn {a : Address} {ready : List Address} (h : w.ready = a :: ready) :
      Stepped w ((({ w with ready } : Wave e).refresh a).finish a)
  | release {a : Address} {held : List Address} (h : w.ready = []) (ha : a ∈ w.waiting)
      (others : ∀ c ∈ w.waiting, c ∈ w.held → c = a ∨ c ∈ held) :
      Stepped w { w with ready := [a], held, waiting := w.waiting.erase a }

theorem stepped_of_step {w v : Wave e} (h : w.step = some v) : Stepped w v := by
  unfold step at h
  split at h
  · rename_i a ready hready
    obtain rfl := Option.some.inj h
    exact .turn hready
  · rename_i hready
    split at h
    · exact absurd h (Option.some_ne_none v).symm
    · rename_i a held hheld
      obtain rfl := Option.some.inj h
      have split := List.takeWhile_append_dropWhile (p := (!w.waiting.contains ·)) (l := w.held)
      rw [hheld] at split
      have ha : a ∈ w.waiting := by
        have := List.head_dropWhile_not (!w.waiting.contains ·) (l := w.held) (by simp [hheld])
        simpa [hheld] using this
      refine .release hready ha ?_
      intro c hc mem
      rw [← split, List.mem_append, List.mem_cons] at mem
      apply mem.resolve_left
      intro early
      have := List.mem_takeWhile_imp early
      simp [hc] at this

theorem of_step_eq_none {w : Wave e} (h : w.step = none) :
    w.ready = [] ∧ ∀ c ∈ w.held, c ∉ w.waiting := by
  unfold step at h
  split at h
  · exact absurd h (Option.some_ne_none _)
  · rename_i hready
    refine ⟨hready, ?_⟩
    intro c hc
    split at h
    · rename_i hheld
      have := List.dropWhile_eq_nil_iff.mp hheld c hc
      simpa using this
    · exact absurd h (Option.some_ne_none _)

end Wave

end ReactiveSheet
