import ReactiveSheet.Proofs.Formula.Levels
import ReactiveSheet.Proofs.Sheet.History
import ReactiveSheet.Session

/-!
What lines do to a sheet, which of them fail, and that failures leave no trace.

A line that is carried out either leaves the sheet alone, or it is an assignment and makes the edit
that its input stands for. It fails because it is not a command, because it puts something into a
cell outside, or because what it puts in is no formula; none of this depends on what is in the
sheet.

An action on a sheet in place is `Atomic` if it comes to what a function of the sheet says, which
has a new sheet only if it succeeds. A check before an atomic action keeps it atomic, and so do
changes behind all the checks, since they cannot fail.
-/

namespace ReactiveSheet

/-- The edit that input stands for. -/
inductive Input.Makes (e : Extent) : Input → Edit → Prop where
  | literal (text : String) : Makes e (.literal text) (.typed text)
  | text (text : String) : Makes e (.text text) (.value (.text text))
  | formula {text : String} {f : Formula} (read : Formula.ofText e text = .ok f) :
    Makes e (.formula text) (.formula f)

namespace Sheet

variable {e : Extent} {s t : Sheet e}

def Asks (e : Extent) (line : String) (a : Address) (edit : Edit) : Prop :=
  ∃ input, Command.ofLine line = .ok (.assign a input) ∧ input.Makes e edit

theorem of_ofEdit_eq_ok {α : Type} {x : Except PlaceError α} {y : α} (h : ofEdit x = .ok y) :
    x = .ok y := by
  cases x with
  | ok z => exact congrArg Except.ok (Except.ok.inj h)
  | error cause => exact nomatch h

theorem edit_of_assign {target : Address} {input : Input} {x : Sheet e × Report}
    (h : s.assign target input = .ok x) :
    ∃ edit, input.Makes e edit ∧ s.edit target edit = .ok x := by
  obtain ⟨-, -, h⟩ := Reader.of_bind_eq_ok h
  cases input with
  | literal text => exact ⟨_, .literal text, of_ofEdit_eq_ok h⟩
  | text text => exact ⟨_, .text text, of_ofEdit_eq_ok h⟩
  | formula text =>
    dsimp only at h
    split at h
    · exact nomatch h
    · rename_i f read
      exact ⟨_, .formula read, of_ofEdit_eq_ok h⟩

theorem assign_of_makes {target : Address} {input : Input} {edit : Edit} {x : Sheet e × Report}
    (makes : input.Makes e edit) (h : s.edit target edit = .ok x) :
    s.assign target input = .ok x := by
  unfold assign
  rw [check_of_mem (edit_eq_follow h).1]
  cases makes with
  | literal text => exact congrArg ofEdit h
  | text text => exact congrArg ofEdit h
  | formula read =>
    simp only [read]
    exact congrArg ofEdit h

theorem execute_of_read {line : String} {command : Command} (s : Sheet e)
    (read : Command.ofLine line = .ok command) : s.execute line = s.obey command := by
  rw [execute, read]
  rfl

theorem execute_congr {line line' : String} (s : Sheet e)
    (same : Text.trim line.toList = Text.trim line'.toList) : s.execute line = s.execute line' := by
  rw [execute, execute, Command.ofLine, Command.ofLine, same]

theorem execute_append_return (s : Sheet e) (line : String) :
    s.execute (line ++ "\r") = s.execute line := by
  have ending : (line ++ "\r").toList = line.toList ++ ['\r'] := String.toList_append
  exact s.execute_congr (by rw [ending, Text.trim_append_blank (by decide)])

theorem execute_of_asks {line : String} {a : Address} {edit : Edit} {r : Report}
    (asks : Asks e line a edit) (h : s.edit a edit = .ok (t, r)) :
    s.execute line = .ok (.assigned a r, t) := by
  obtain ⟨input, read, makes⟩ := asks
  rw [execute_of_read s read, obey, assign_of_makes makes h]
  rfl

/-- A line that is carried out either leaves the sheet alone or is an edit. -/
theorem execute_cases {line : String} {outcome : Outcome}
    (h : s.execute line = .ok (outcome, t)) :
    t = s ∨ ∃ a r edit, outcome = .assigned a r ∧ Asks e line a edit ∧
      s.edit a edit = .ok (t, r) := by
  obtain ⟨command, hc, h⟩ := Reader.of_bind_eq_ok h
  cases command with
  | assign target input =>
    obtain ⟨⟨u, r⟩, hu, h⟩ := Reader.of_bind_eq_ok h
    obtain ⟨edit, makes, hedit⟩ := edit_of_assign hu
    obtain ⟨rfl, rfl⟩ := Prod.mk.inj (Except.ok.inj h)
    exact Or.inr ⟨target, r, edit, rfl, ⟨input, hc, makes⟩, hedit⟩
  | help => exact Or.inl (Prod.mk.inj (Except.ok.inj h)).2.symm
  | table => exact Or.inl (Prod.mk.inj (Except.ok.inj h)).2.symm
  | dependencies => exact Or.inl (Prod.mk.inj (Except.ok.inj h)).2.symm
  | clear => exact Or.inl (Prod.mk.inj (Except.ok.inj h)).2.symm
  | quit => exact Or.inl (Prod.mk.inj (Except.ok.inj h)).2.symm
  | nothing => exact Or.inl (Prod.mk.inj (Except.ok.inj h)).2.symm

def enter (s : Sheet e) : List String → Sheet e
  | [] => s
  | line :: rest =>
    match s.execute line with
    | .ok (_, t) => t.enter rest
    | .error _ => s.enter rest

theorem enter_eq_perform_asked (s : Sheet e) (lines : List String) :
    ∃ history : List (Address × Edit), (∀ x ∈ history, ∃ line ∈ lines, Asks e line x.1 x.2) ∧
      s.enter lines = s.perform history := by
  induction lines generalizing s with
  | nil => exact ⟨[], fun x hx => absurd hx List.not_mem_nil, rfl⟩
  | cons line rest ih =>
    have later {history : List (Address × Edit)}
        (asked : ∀ x ∈ history, ∃ l ∈ rest, Asks e l x.1 x.2) :
        ∀ x ∈ history, ∃ l ∈ line :: rest, Asks e l x.1 x.2 := fun x hx =>
      let ⟨l, hl, asks⟩ := asked x hx
      ⟨l, List.mem_cons_of_mem line hl, asks⟩
    unfold enter
    cases h : s.execute line with
    | error cause =>
      obtain ⟨history, asked, same⟩ := ih s
      exact ⟨history, later asked, same⟩
    | ok x =>
      obtain ⟨outcome, t⟩ := x
      obtain ⟨history, asked, same⟩ := ih t
      rcases execute_cases h with rfl | ⟨a, r, edit, -, asks, hedit⟩
      · exact ⟨history, later asked, same⟩
      · refine ⟨(a, edit) :: history,
          List.forall_mem_cons.mpr ⟨⟨line, List.mem_cons_self, asks⟩, later asked⟩, ?_⟩
        rw [perform, hedit]
        exact same

end Sheet

def Input.refusal? (e : Extent) : Input → Option LineError
  | .formula typed =>
    match Formula.ofText e typed with
    | .error cause => some (.formula cause)
    | .ok _ => none
  | _ => none

theorem Input.exists_makes {e : Extent} {input : Input} (h : input.refusal? e = none) :
    ∃ edit, input.Makes e edit := by
  cases input with
  | literal typed => exact ⟨_, .literal typed⟩
  | text typed => exact ⟨_, .text typed⟩
  | formula typed =>
    rw [Input.refusal?] at h
    cases read : Formula.ofText e typed with
    | ok f => exact ⟨_, .formula read⟩
    | error cause =>
      rw [read] at h
      cases h

def Command.refusal? (e : Extent) : Command → Option LineError
  | .assign target input =>
    if target ∈ e then input.refusal? e else some (.place (e.objection target))
  | _ => none

/-- What is wrong with a line. -/
def Extent.refusal? (e : Extent) (line : String) : Option LineError :=
  match Command.ofLine line with
  | .error cause => some cause
  | .ok command => command.refusal? e

namespace Sheet

variable {e : Extent}

theorem Asks.inside {line : String} {a : Address} {edit : Edit} (asks : Asks e line a edit) :
    ∀ p ∈ readBy edit.formula?, p ∈ e := by
  obtain ⟨input, -, makes⟩ := asks
  cases makes with
  | literal text => exact fun p hp => absurd hp List.not_mem_nil
  | text text => exact fun p hp => absurd hp List.not_mem_nil
  | formula read =>
    exact fun p hp =>
      (Formula.fits_of_ofText read).printable.mentions p (Formula.mem_references.mp hp)

theorem Asks.execute {line : String} {a : Address} {edit : Edit} (asks : Asks e line a edit)
    (s : Sheet e) (ha : a ∈ e) :
    ∃ r t, s.execute line = .ok (.assigned a r, t) ∧ s.edit a edit = .ok (t, r) := by
  obtain ⟨⟨t, r⟩, done⟩ := s.edit_of_inside edit ha asks.inside
  exact ⟨r, t, execute_of_asks asks done, done⟩

theorem assign_of_refusal {target : Address} {input : Input} {err : LineError}
    (s : Sheet e) (ha : target ∈ e) (h : input.refusal? e = some err) :
    s.assign target input = .error err := by
  cases input with
  | literal typed => cases h
  | text typed => cases h
  | formula typed =>
    rw [Input.refusal?] at h
    unfold assign
    rw [check_of_mem ha]
    cases read : Formula.ofText e typed with
    | ok f =>
      rw [read] at h
      cases h
    | error cause =>
      rw [read] at h
      cases h
      simp only [read]
      rfl

theorem assign_of_not_mem {target : Address} (s : Sheet e) (out : target ∉ e) (input : Input) :
    s.assign target input = .error (.place (e.objection target)) := by
  unfold assign
  rw [Extent.check, if_neg out]
  rfl

theorem obey_of_refusal {command : Command} {err : LineError} (s : Sheet e)
    (h : command.refusal? e = some err) : s.obey command = .error err := by
  cases command with
  | assign target input =>
    change (if target ∈ e then _ else _) = _ at h
    rw [obey]
    split at h
    · next ha =>
      rw [assign_of_refusal s ha h]
      rfl
    · next out =>
      cases h
      rw [assign_of_not_mem s out]
      rfl
  | _ => cases h

theorem execute_of_refusal {line : String} {err : LineError} (s : Sheet e)
    (h : e.refusal? line = some err) : s.execute line = .error err := by
  unfold Extent.refusal? at h
  split at h
  · next cause read =>
    cases h
    rw [execute, read]
    rfl
  · next command read =>
    rw [execute_of_read s read]
    exact obey_of_refusal s h

theorem execute_of_no_refusal {line : String} (s : Sheet e) (h : e.refusal? line = none) :
    ∃ x, s.execute line = .ok x := by
  unfold Extent.refusal? at h
  split at h
  · cases h
  · next command read =>
    cases command with
    | assign target input =>
      change (if target ∈ e then _ else _) = _ at h
      split at h
      · next ha =>
        obtain ⟨edit, makes⟩ := Input.exists_makes h
        obtain ⟨r, t, done, -⟩ := Asks.execute ⟨input, read, makes⟩ s ha
        exact ⟨_, done⟩
      · cases h
    | _ => exact ⟨_, execute_of_read s read⟩

/-- A line fails on a sheet just when something is wrong with it, whatever is in the sheet. -/
theorem execute_eq_error_iff (s : Sheet e) {line : String} {err : LineError} :
    s.execute line = .error err ↔ e.refusal? line = some err := by
  constructor
  · intro failed
    cases h : e.refusal? line with
    | none =>
      obtain ⟨x, done⟩ := execute_of_no_refusal s h
      rw [done] at failed
      cases failed
    | some cause =>
      rw [execute_of_refusal s h] at failed
      exact congrArg some (Except.error.inj failed)
  · exact execute_of_refusal s

theorem refusal_of_execute {s : Sheet e} {line : String} {x : Outcome × Sheet e}
    (h : s.execute line = .ok x) : e.refusal? line = none := by
  cases refused : e.refusal? line with
  | none => rfl
  | some err =>
    rw [execute_of_refusal s refused] at h
    cases h

theorem enter_filter (s : Sheet e) (lines : List String) :
    s.enter (lines.filter fun line => (e.refusal? line).isNone) = s.enter lines := by
  induction lines generalizing s with
  | nil => rfl
  | cons line rest ih =>
    rw [List.filter_cons]
    cases h : s.execute line with
    | ok x =>
      rw [refusal_of_execute h, Option.isNone_none, if_pos rfl, enter, enter, h]
      exact ih x.2
    | error cause =>
      rw [(execute_eq_error_iff s).mp h, Option.isNone_some, if_neg Bool.false_ne_true, enter, h]
      exact ih s

end Sheet

namespace InPlace

variable {e : Extent} {ε α β : Type} {s : Sheet e}

/-- The result of an action that is done as a whole or not at all, with the sheet after it. -/
def wholly (s : Sheet e) : Except ε (Sheet e × α) → Except ε α × Sheet e
  | .ok (t, x) => (.ok x, t)
  | .error cause => (.error cause, s)

/-- On this sheet the action is done as a whole or not at all. -/
def Atomic (action : InPlace e ε α) (s : Sheet e) (x : Except ε (Sheet e × α)) : Prop :=
  action.run s = wholly s x

theorem Atomic.require {x : Except ε α} {action : α → InPlace e ε β}
    {g : α → Except ε (Sheet e × β)} (h : ∀ v, Atomic (action v) s (g v)) :
    Atomic (require x >>= action) s (x >>= g) := by
  cases x with
  | ok v => exact h v
  | error cause => rfl

theorem atomic_follow (a : Address) (x : Sheet e × Report × Bool) :
    (follow a x.2 : InPlace e ε Report).run x.1 = wholly s (.ok (Sheet.follow a x)) := by
  obtain ⟨t, r, changed⟩ := x
  cases changed <;> rfl

theorem atomic_setValue (s : Sheet e) (a : Address) (v : Value) :
    Atomic (setValue a v) s (s.setValue a v) :=
  .require fun () => atomic_follow a _

theorem forM_check (as : List Address) :
    as.forM check = (require (as.forM e.check) : InPlace e PlaceError Unit) := by
  induction as with
  | nil => rfl
  | cons a as ih =>
    change (check a >>= fun _ => as.forM check) =
      require (e.check a >>= fun _ => as.forM e.check)
    rw [ih, check]
    cases e.check a <;> rfl

theorem atomic_setFormula (s : Sheet e) (a : Address) (f : Formula) :
    Atomic (setFormula a f) s (s.setFormula a f) := by
  refine .require fun () => ?_
  rw [forM_check]
  exact .require fun () => atomic_follow a _

theorem atomic_edit (s : Sheet e) (a : Address) (edit : Edit) :
    Atomic (InPlace.edit a edit) s (s.edit a edit) := by
  cases edit with
  | typed text => exact atomic_setValue s a (.ofTyped text)
  | value v => exact atomic_setValue s a v
  | formula f => exact atomic_setFormula s a f

theorem run_place (action : InPlace e PlaceError α) (s : Sheet e) :
    (place action).run s = ((action.run s).1.mapError .place, (action.run s).2) := rfl

theorem Atomic.place {action : InPlace e PlaceError α} {x : Except PlaceError (Sheet e × α)}
    (h : Atomic action s x) : Atomic (place action) s (Sheet.ofEdit x) := by
  rw [Atomic, run_place, h]
  cases x <;> rfl

theorem atomic_assign (s : Sheet e) (target : Address) (input : Input) :
    Atomic (assign target input) s (s.assign target input) := by
  have check : (place (check target) : InPlace e LineError Unit) =
      require (Sheet.ofEdit (e.check target)) := by
    rw [InPlace.check]
    cases e.check target <;> rfl
  unfold assign Sheet.assign
  rw [check]
  refine .require fun () => ?_
  cases input with
  | literal text => exact (atomic_setValue s target (.ofTyped text)).place
  | text text => exact (atomic_setValue s target (.text text)).place
  | formula text =>
    dsimp only
    cases Formula.ofText e text with
    | error cause => rfl
    | ok f => exact (atomic_setFormula s target f).place

theorem Atomic.map {action : InPlace e ε α} {x : Except ε (Sheet e × α)} (h : Atomic action s x)
    (g : α → β) : Atomic (action >>= fun v => pure (g v)) s (x.map (Prod.map id g)) := by
  rw [Atomic, bind_pure_comp, ExceptT.run_map]
  change ((action.run s).1.map g, (action.run s).2) = _
  rw [h]
  cases x <;> rfl

theorem atomic_obey (s : Sheet e) (command : Command) :
    Atomic (obey command) s ((s.obey command).map Prod.swap) := by
  cases command with
  | assign target input =>
    have h := (atomic_assign s target input).map (Outcome.assigned target)
    rw [Sheet.obey]
    cases x : s.assign target input with
    | error cause => rwa [x] at h
    | ok x => rwa [x] at h
  | help => rfl
  | table => rfl
  | dependencies => rfl
  | clear => rfl
  | quit => rfl
  | nothing => rfl

theorem atomic_execute (s : Sheet e) (line : String) :
    Atomic (execute line) s ((s.execute line).map Prod.swap) := by
  unfold execute Sheet.execute
  cases Command.ofLine line with
  | error cause => rfl
  | ok command => exact atomic_obey s command

theorem edit_fails_iff (s : Sheet e) (a : Address) (edit : Edit) :
    (∃ cause, s.edit a edit = .error cause) ↔
      a ∉ e ∨ ∃ f, edit = .formula f ∧ ∃ p ∈ f.references, p ∉ e := by
  constructor
  · rintro ⟨cause, failed⟩
    by_contra inside
    simp only [not_or, not_not, not_exists, not_and] at inside
    obtain ⟨ha, reads⟩ := inside
    have all : ∀ p ∈ Sheet.readBy edit.formula?, p ∈ e := by
      cases edit with
      | typed text => exact fun p hp => nomatch hp
      | value v => exact fun p hp => nomatch hp
      | formula f => exact reads f rfl
    obtain ⟨x, done⟩ := s.edit_of_inside edit ha all
    exact nomatch failed.symm.trans done
  · intro outside
    cases h : s.edit a edit with
    | error cause => exact ⟨cause, rfl⟩
    | ok x =>
      obtain ⟨ha, reads, -⟩ := Sheet.edit_eq_follow h
      rcases outside with out | ⟨f, rfl, p, hp, out⟩
      · exact absurd ha out
      · exact absurd (reads p hp) out

/-- In place as well, a line that fails, or that does anything but assign, leaves the sheet as it
was, and an edit fails just when an address lies outside and then leaves the sheet as it was. -/
theorem failures_change_nothing (e : Extent) :
    (∀ (s : Sheet e) (line : String),
      let after := (execute line).run s
      after = wholly s ((s.execute line).map Prod.swap) ∧
        ((∃ target report, after.1 = .ok (.assigned target report)) ∨ after.2 = s)) ∧
      ∀ (s : Sheet e) (a : Address) (edit : Edit),
        let after := (InPlace.edit a edit).run s
        after = wholly s (s.edit a edit) ∧
          ((∃ cause, after.1 = .error cause) ↔
            a ∉ e ∨ ∃ f, edit = .formula f ∧ ∃ p ∈ f.references, p ∉ e) ∧
          ((∃ report, after.1 = .ok report) ∨ after.2 = s) := by
  constructor
  · intro s line after
    have atomic : after = wholly s ((s.execute line).map Prod.swap) := atomic_execute s line
    refine ⟨atomic, ?_⟩
    rw [atomic]
    cases h : s.execute line with
    | error cause => exact Or.inr rfl
    | ok x =>
      obtain ⟨outcome, t⟩ := x
      rcases Sheet.execute_cases h with rfl | ⟨a, r, edit, rfl, -, -⟩
      · exact Or.inr rfl
      · exact Or.inl ⟨a, r, rfl⟩
  · intro s a edit after
    have atomic : after = wholly s (s.edit a edit) := atomic_edit s a edit
    refine ⟨atomic, ?_⟩
    rw [atomic, ← edit_fails_iff s a edit]
    cases s.edit a edit with
    | error cause => exact ⟨⟨fun _ => ⟨cause, rfl⟩, fun _ => ⟨cause, rfl⟩⟩, Or.inr rfl⟩
    | ok x => exact ⟨⟨(fun ⟨_, h⟩ => nomatch h), (fun ⟨_, h⟩ => nomatch h)⟩, Or.inl ⟨x.2, rfl⟩⟩

end InPlace

end ReactiveSheet
