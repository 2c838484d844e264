import ReactiveSheet.Proofs.Sheet.Schedule

/-!
A wave takes no more steps than its budget allows, and then every cell has had its turn.

`load` counts a first turn and a release for each cell that waits, a turn for each that is ready,
and for each cell that has not changed the turns that its change can bring about. Each step takes
at least one from it.
-/

namespace ReactiveSheet.Wave

open Std (HashMap HashSet)
open Sheet (Linked)

variable {e : Extent} {s : Sheet e} {origin : Address}

/-- The links to children from the cells of a list that have not changed. -/
def unspent (s : Sheet e) (changed : Array Address) : List Address → Nat
  | [] => 0
  | c :: l => (if changed.contains c then 0 else (s.children c).length) + unspent s changed l

def load (s : Sheet e) (origin : Address) (w : Wave e) : Nat :=
  2 * w.waiting.size + w.ready.length + unspent s w.report.changed (s.downstream origin)

theorem unspent_push_le (s : Sheet e) (changed : Array Address) (l : List Address) (a : Address) :
    unspent s (changed.push a) l ≤ unspent s changed l := by
  induction l with
  | nil => exact le_rfl
  | cons c l ih =>
    rw [unspent, unspent, Array.contains_push]
    by_cases hc : changed.contains c = true
    · rw [hc, Bool.true_or]
      simpa using ih
    · rw [if_neg hc]
      split <;> omega

theorem unspent_push_of_mem {changed : Array Address} {l : List Address} {a : Address}
    (mem : a ∈ l) (new : a ∉ changed) :
    unspent s (changed.push a) l + (s.children a).length ≤ unspent s changed l := by
  induction l with
  | nil => exact absurd mem List.not_mem_nil
  | cons c l ih =>
    rw [unspent, unspent, Array.contains_push]
    by_cases same : c = a
    · have := unspent_push_le s changed l a
      have fresh : ¬ changed.contains a = true := mt Array.contains_iff_mem.mp new
      rw [same, beq_self_eq_true, Bool.or_true, if_pos rfl, if_neg fresh]
      omega
    · have := ih ((List.mem_cons.mp mem).resolve_left (Ne.symm same))
      rw [beq_eq_false_iff_ne.mpr same, Bool.or_false]
      omega

theorem Sound.refresh {w v : Wave e} {a : Address} (h : Sound s origin (some a) w) (hs : Linked s)
    (hv : Refreshed w a v) :
    Sound s origin (some a) v ∧
      (a ∈ v.dirty → s.Behind a ∧ v.sheet.value? a = some (.fault .cycle)) ∧
      load s origin v ≤ load s origin w := by
  cases hv with
  | clean clean => exact ⟨h, fun dirty => absurd dirty clean, le_rfl⟩
  | kept dirty hf same r hr =>
    refine ⟨h.refresh_kept r hr, ?_, ?_⟩
    · intro k
      exact absurd (HashSet.mem_erase.mp k).1 (by simp)
    · simp only [load, hr, le_rfl]
  | changed dirty hf other r hr marked =>
    obtain ⟨sound, spent⟩ := h.refresh_changed hs dirty hf hr marked
    refine ⟨sound, spent, ?_⟩
    have paid := unspent_push_of_mem (s := s) (h.due_mem a (Or.inr rfl))
      (h.not_changed hs dirty other)
    have room := marked.room
    simp only [load, marked.waiting, marked.report, hr]
    rw [h.form.children] at room
    dsimp only at room
    omega

theorem Sound.finish {w : Wave e} {a : Address} (h : Sound s origin (some a) w) (hs : Linked s)
    (spent : a ∈ w.dirty → s.Behind a ∧ w.sheet.value? a = some (.fault .cycle)) :
    Sound s origin none (w.finish a) ∧ load s origin (w.finish a) ≤ load s origin w := by
  by_cases done : a ∈ w.done
  · rw [finish_of_done done]
    exact ⟨h.finish_again spent done, le_rfl⟩
  · have counted := countedDown_finish (h.linked hs) done
    refine ⟨h.finish_first hs spent done counted, ?_⟩
    have room := counted.room
    simp only [load, counted.report]
    dsimp only at room
    omega

theorem Sound.formula {busy : Option Address} {w : Wave e} (h : Sound s origin busy w)
    (hs : Linked s) {a : Address} (ha : a ∈ s.downstream origin) :
    ∃ f, w.sheet.formula? a = some f := by
  obtain ⟨-, path⟩ := (Sheet.mem_downstream hs).mp ha
  obtain ⟨p, link, -⟩ := Relation.TransGen.head'_iff.mp path
  obtain ⟨f, hf, -⟩ := hs.formula_of_parent link
  exact ⟨f, h.form.formula ▸ hf⟩

theorem Sound.step {w v : Wave e} (h : Sound s origin none w) (hs : Linked s)
    (hw : w.step = some v) : Sound s origin none v ∧ load s origin v < load s origin w := by
  cases stepped_of_step hw with
  | @turn a ready hready =>
    have popped := h.pop hready
    obtain ⟨f, hf⟩ := popped.formula hs (popped.due_mem a (Or.inr rfl))
    obtain ⟨sound, spent, light⟩ := popped.refresh hs (refreshed_refresh hf)
    obtain ⟨sound', light'⟩ := sound.finish hs spent
    refine ⟨sound', light'.trans_lt (light.trans_lt ?_)⟩
    simp only [load, hready, List.length_cons]
    omega
  | release idle ha others =>
    refine ⟨h.release idle ha others, ?_⟩
    have := size_erase_of_mem ha
    simp only [load, idle, List.length_cons, List.length_nil]
    omega

theorem run_preserves {I : Wave e → Prop} (step : ∀ w v, I w → w.step = some v → I v) {n : Nat}
    {w : Wave e} (h : I w) : I (w.run n) := by
  induction n generalizing w with
  | zero => exact h
  | succ n ih =>
    unfold run
    cases hw : w.step with
    | none => exact h
    | some v => exact ih (step w v h hw)

theorem Sound.run {w : Wave e} (h : Sound s origin none w) (hs : Linked s) (n : Nat) :
    Sound s origin none (w.run n) :=
  run_preserves (fun _ _ sound hw => (sound.step hs hw).1) h

theorem Sound.step_run {w : Wave e} (h : Sound s origin none w) (hs : Linked s) {n : Nat}
    (enough : load s origin w ≤ n) : (w.run n).step = none := by
  induction n generalizing w with
  | zero =>
    apply Option.eq_none_iff_forall_ne_some.mpr
    intro v hw
    have := (h.step hs hw).2
    omega
  | succ n ih =>
    unfold Wave.run
    cases hw : w.step with
    | none => exact hw
    | some v =>
      obtain ⟨sound, light⟩ := h.step hs hw
      exact ih sound (by omega)

/-- When no step is left, every cell that takes part has had its turn. -/
theorem Sound.done_of_step_eq_none {w : Wave e} (h : Sound s origin none w) (hw : w.step = none)
    {c : Address} (hc : c ∈ s.downstream origin) : c ∈ w.done ∧ ¬ w.Due none c := by
  obtain ⟨idle, settled⟩ := of_step_eq_none hw
  have notDue : ¬ w.Due none c := by
    intro hd
    exact List.not_mem_nil (idle ▸ due_none.mp hd)
  rcases h.placed c hc with waits | hd | done
  · exact absurd waits (settled c (h.held c waits))
  · exact absurd hd notDue
  · exact ⟨done, notDue⟩

def quotas (s : Sheet e) (origin : Address) : List (Address × Nat) :=
  (s.downstream origin).map fun a =>
    (a, (s.parents a).countP (HashSet.ofList (s.downstream origin)).contains)

theorem mem_quotas {r : Report} {c : Address} {n : Nat} : (c, n) ∈ quotas s origin ↔
    c ∈ s.downstream origin ∧ n = missing s origin (start s origin r) c := by
  have count : (s.parents c).countP (HashSet.ofList (s.downstream origin)).contains =
      missing s origin (start s origin r) c := by
    apply List.countP_congr
    intro p _
    rw [HashSet.contains_ofList, List.contains_iff_mem, decide_eq_true_eq]
    exact ⟨fun h => ⟨h, HashSet.not_mem_empty⟩, And.left⟩
  simp only [quotas, List.mem_map, Prod.mk.injEq]
  constructor
  · rintro ⟨a, ha, rfl, rfl⟩
    exact ⟨ha, count⟩
  · rintro ⟨hc, rfl⟩
    exact ⟨c, hc, rfl, count⟩

theorem distinct_quotas (hs : Linked s) :
    (quotas s origin).Pairwise fun p q => (p.1 == q.1) = false := by
  refine List.pairwise_map.mpr ?_
  exact (Sheet.nodup_downstream hs origin).imp fun ne => beq_eq_false_iff_ne.mpr ne

theorem mem_ready_start {r : Report} {c : Address} : c ∈ (start s origin r).ready ↔
    c ∈ s.downstream origin ∧ missing s origin (start s origin r) c = 0 := by
  change c ∈ ((quotas s origin).filter (·.2 = 0)).map Prod.fst ↔ _
  simp only [List.mem_map, List.mem_filter, Prod.exists, decide_eq_true_eq]
  constructor
  · rintro ⟨c, n, ⟨quota, zero⟩, rfl⟩
    obtain ⟨hc, count⟩ := mem_quotas.mp quota
    exact ⟨hc, count.symm.trans zero⟩
  · rintro ⟨hc, zero⟩
    exact ⟨c, 0, ⟨mem_quotas.mpr ⟨hc, zero.symm⟩, rfl⟩, rfl⟩

theorem waiting_start (hs : Linked s) {r : Report} {c : Address} {n : Nat} :
    (start s origin r).waiting[c]? = some n ↔
      c ∈ s.downstream origin ∧ 0 < n ∧ n = missing s origin (start s origin r) c := by
  let waiting := (quotas s origin).filter (·.2 ≠ 0)
  have mem {a : Address} {m : Nat} : (a, m) ∈ waiting ↔
      a ∈ s.downstream origin ∧ 0 < m ∧ m = missing s origin (start s origin r) a := by
    rw [List.mem_filter, mem_quotas, decide_eq_true_eq, Nat.pos_iff_ne_zero]
    tauto
  have distinct : waiting.Pairwise fun p q => (p.1 == q.1) = false :=
    (distinct_quotas hs).filter _
  change (HashMap.ofList waiting)[c]? = some n ↔ _
  rw [← mem]
  constructor
  · intro found
    have listed : c ∈ HashMap.ofList waiting :=
      HashMap.mem_iff_isSome_getElem?.mpr (by rw [found]; rfl)
    rw [HashMap.mem_ofList, List.contains_iff_mem, List.mem_map] at listed
    obtain ⟨⟨a, m⟩, hm, rfl⟩ := listed
    have stored : (HashMap.ofList waiting)[a]? = some m :=
      HashMap.getElem?_ofList_of_mem (beq_self_eq_true a) distinct hm
    rw [found, Option.some.injEq] at stored
    exact stored ▸ hm
  · exact HashMap.getElem?_ofList_of_mem (beq_self_eq_true c) distinct

theorem sound_start (hs : Linked s) {r : Report}
    (new : ∀ c ∈ s.downstream origin, c ∉ r.changed) :
    Sound s origin none (start s origin r) := by
  constructor
  case form =>
    exact .refl s
  case due_mem =>
    intro c hc
    exact (mem_ready_start.mp (due_none.mp hc)).1
  case done_mem =>
    intro c hc
    exact absurd hc HashSet.not_mem_empty
  case dirty_mem =>
    intro c hc
    have child := List.contains_iff_mem.mp (HashSet.mem_ofList.mp hc)
    have link := (hs.mem_children origin c).mp child
    exact or_iff_not_imp_left.mpr (Sheet.downstream_of_parent hs (Or.inl rfl) link)
  case counts =>
    intro c n
    exact (waiting_start hs).mp
  case apart =>
    intro c hc
    obtain ⟨n, hn⟩ := waits_iff.mp hc
    obtain ⟨-, pos, count⟩ := (waiting_start hs).mp hn
    constructor
    · intro hd
      have := (mem_ready_start.mp (due_none.mp hd)).2
      omega
    · exact HashSet.not_mem_empty
  case held =>
    intro c hc
    obtain ⟨n, hn⟩ := waits_iff.mp hc
    exact ((waiting_start hs).mp hn).1
  case placed =>
    intro c hc
    by_cases zero : missing s origin (start s origin r) c = 0
    · exact Or.inr (Or.inl (Or.inl (mem_ready_start.mpr ⟨hc, zero⟩)))
    · have := (waiting_start hs).mpr ⟨hc, Nat.pos_of_ne_zero zero, rfl⟩
      exact Or.inl (waits_iff.mpr ⟨_, this⟩)
  case ordered =>
    intro c _ hc p hp part
    rcases hc with due | done
    · exact missing_eq_zero.mp (mem_ready_start.mp (due_none.mp due)).2 p hp part
    · exact absurd done HashSet.not_mem_empty
  case fresh =>
    intro c hc
    exact absurd hc HashSet.not_mem_empty
  case again =>
    intro c _ hc
    exact absurd hc HashSet.not_mem_empty
  case once =>
    intro c hc changed
    exact absurd changed (new c hc)

/-- The steps that a wave is given are enough. -/
theorem load_start_le (s : Sheet e) (origin : Address) (r : Report) :
    load s origin (start s origin r) ≤ (start s origin r).budget := by
  have waits : (start s origin r).waiting.size ≤ ((quotas s origin).filter (·.2 ≠ 0)).length :=
    HashMap.size_ofList_le
  have ready : (start s origin r).ready.length = ((quotas s origin).filter (·.2 = 0)).length :=
    List.length_map _
  -- each cell that takes part is either ready or waits
  have all : (quotas s origin).length = (s.downstream origin).length := List.length_map _
  have split := (quotas s origin).length_eq_countP_add_countP fun p => decide (p.2 = 0)
  simp only [List.countP_eq_length_filter, decide_eq_true_eq, ← ne_eq] at split
  have budget : ∀ l : List Address, 2 * l.length + unspent s r.changed l ≤
      l.foldr (fun a n => (s.children a).length + 2 + n) 0 := by
    intro l
    induction l with
    | nil => exact le_rfl
    | cons a l ih =>
      rw [unspent, List.length_cons, List.foldr_cons]
      split <;> omega
  refine le_trans ?_ (budget (s.downstream origin))
  change 2 * _ + _ + unspent s r.changed _ ≤ _
  omega

end ReactiveSheet.Wave
