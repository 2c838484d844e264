import ReactiveSheet.Console
import ReactiveSheet.Proofs.Sheet.Lines

/-!
Scripts and commands side by side.

Both run the lines before the first that ends the run. A script passes over the failing ones and
names them by their numbers; commands stop at the first. Since a failing line changes nothing and
fails wherever it stands, the two differ in nothing else.
-/

namespace ReactiveSheet

namespace Text

theorem lines_go_append {cs : List Char} (h : '\n' ∉ cs) (line rest : List Char) :
    lines.go line (cs ++ rest) = lines.go (cs.reverse ++ line) rest := by
  induction cs generalizing line with
  | nil => rfl
  | cons c cs ih =>
    have hc : c ≠ '\n' := (List.ne_of_not_mem_cons h).symm
    rw [List.cons_append, lines.go, if_neg hc, ih (List.not_mem_of_not_mem_cons h),
      List.reverse_cons, List.append_assoc, List.singleton_append]

theorem lines_go_break (line rest : List Char) :
    lines.go line ('\n' :: rest) = (withoutReturn line).reverse :: lines.go [] rest := by
  rw [lines.go, if_pos rfl]

theorem lines_go_append_break (cs line : List Char) :
    (lines.go line (cs ++ ['\n'])).map trim = (lines.go line cs).map trim ∨
      lines.go line (cs ++ ['\n']) = lines.go line cs ++ [[]] := by
  induction cs generalizing line with
  | nil =>
    rw [List.nil_append, lines_go_break, lines.go]
    cases line with
    | nil => exact Or.inr rfl
    | cons c line =>
      left
      rw [List.map_cons, trim_withoutReturn]
      rfl
  | cons c cs ih =>
    rw [List.cons_append, lines.go, lines.go]
    by_cases hc : c = '\n'
    · rw [if_pos hc, if_pos hc, List.cons_append, List.map_cons, List.map_cons]
      exact (ih []).imp (congrArg _) (congrArg _)
    · rw [if_neg hc, if_neg hc]
      exact ih (c :: line)

end Text

namespace Console

def scriptOf (lines : List String) : String := String.join (lines.map (· ++ "\n"))

/-- The text has these lines, one after another; the break behind the last may be missing. -/
def Writes (text : String) (lines : List String) : Prop :=
  text = scriptOf lines ∨ text ++ "\n" = scriptOf lines

/-- A line without the blanks around it, which is all that is looked at when it is run. -/
def trimmed (line : String) : List Char := Text.trim line.toList

theorem trimmed_linesOf (text : String) :
    (linesOf text).map trimmed = (Text.lines.go [] text.toList).map Text.trim := by
  rw [linesOf, Text.lines, List.map_map]
  exact List.map_congr_left fun cs _ => congrArg Text.trim String.toList_ofList

theorem linesOf_scriptOf {lines : List String} (unbroken : ∀ line ∈ lines, '\n' ∉ line.toList) :
    (linesOf (scriptOf lines)).map trimmed = lines.map trimmed := by
  induction lines with
  | nil => rfl
  | cons line rest ih =>
    obtain ⟨here, later⟩ := List.forall_mem_cons.mp unbroken
    have text : (scriptOf (line :: rest)).toList =
        line.toList ++ '\n' :: (scriptOf rest).toList := by
      simp [scriptOf]
    rw [trimmed_linesOf, text, Text.lines_go_append here, Text.lines_go_break, List.map_cons,
      Text.trim_withoutReturn, ← trimmed_linesOf, ih later, List.append_nil, List.reverse_reverse]
    rfl

/-- Whatever has these lines has them when it is read, but for carriage returns at their ends and
for an empty one behind them. -/
theorem linesOf_of_writes {lines : List String} {text : String} (h : Writes text lines)
    (unbroken : ∀ line ∈ lines, '\n' ∉ line.toList) :
    (linesOf text).map trimmed = lines.map trimmed ∨
      (linesOf text ++ [""]).map trimmed = lines.map trimmed := by
  have read := linesOf_scriptOf unbroken
  rcases h with rfl | ended
  · exact Or.inl read
  · have ending : (text ++ "\n").toList = text.toList ++ ['\n'] := String.toList_append
    have broken : (linesOf (text ++ "\n")).map trimmed =
        (Text.lines.go [] (text.toList ++ ['\n'])).map Text.trim := by
      rw [trimmed_linesOf, ending]
    rw [← read, ← ended, broken, List.map_append, trimmed_linesOf]
    rcases Text.lines_go_append_break text.toList [] with same | more
    · exact Or.inl same.symm
    · rw [more, List.map_append]
      exact Or.inr rfl

def quits (line : String) : Bool :=
  match Command.ofLine line with
  | .ok .quit => true
  | _ => false

def beforeQuit (lines : List String) : List String := lines.takeWhile fun line => !quits line

variable {e : Extent} {s u : Sheet e} {line : String} {outcome : Outcome}

theorem execute_of_quits (s : Sheet e) (h : quits line = true) :
    s.execute line = .ok (.quit, s) := by
  unfold quits at h
  split at h
  · next read => exact s.execute_of_read read
  · cases h

theorem quits_of_execute (h : s.execute line = .ok (.quit, u)) : quits line = true := by
  obtain ⟨command, read, h⟩ := Reader.of_bind_eq_ok h
  rw [quits, read]
  cases command with
  | assign target input =>
    obtain ⟨x, -, h⟩ := Reader.of_bind_eq_ok h
    cases h
  | quit => rfl
  | _ => cases h

theorem ne_quit_of_execute (stays : quits line = false) (h : s.execute line = .ok (outcome, u)) :
    outcome ≠ .quit := by
  rintro rfl
  rw [quits_of_execute h] at stays
  cases stays

variable (name : String) (t : Transcript) (number failed : Nat) (rest : List String)

theorem runScript_of_quits (s : Sheet e) (h : quits line = true) :
    runScript name s t number failed (line :: rest) = runScript.finish name s t failed := by
  rw [runScript, execute_of_quits s h]

theorem runScript_of_ok (stays : quits line = false) (h : s.execute line = .ok (outcome, u)) :
    runScript name s t number failed (line :: rest) =
      runScript name u { t with out := t.out ++ shownQuietly outcome u } (number + 1) failed
        rest := by
  have other := ne_quit_of_execute stays h
  rw [runScript, h]
  cases outcome with
  | quit => exact absurd rfl other
  | _ => rfl

def complaint (err : LineError) : String := s!"{name}:{number}: {err.message}\n"

theorem runScript_of_error {err : LineError} (h : s.execute line = .error err) :
    runScript name s t number failed (line :: rest) =
      runScript name s { t with err := t.err ++ complaint name number err } (number + 1)
        (failed + 1) rest := by
  rw [runScript, h]
  rfl

theorem runCommands_of_quits (s : Sheet e) (h : quits line = true) :
    runCommands s t (line :: rest) = { t with out := t.out ++ s.table } := by
  rw [runCommands, execute_of_quits s h]

theorem runCommands_of_ok (stays : quits line = false) (h : s.execute line = .ok (outcome, u)) :
    runCommands s t (line :: rest) =
      runCommands u { t with out := t.out ++ shownQuietly outcome u } rest := by
  have other := ne_quit_of_execute stays h
  rw [runCommands, h]
  cases outcome with
  | quit => exact absurd rfl other
  | _ => rfl

def shows (s : Sheet e) : List String → String
  | [] => ""
  | line :: rest =>
    match s.execute line with
    | .ok (outcome, u) => shownQuietly outcome u ++ shows u rest
    | .error _ => shows s rest

/-- What a script says about its failing lines, the first of them having this number. -/
def complaints (e : Extent) (lines : List String) : List String :=
  (lines.zipIdx number).filterMap fun x => (e.refusal? x.1).map (complaint name x.2)

theorem complaints_cons (line : String) (rest : List String) :
    complaints name number e (line :: rest) =
      ((e.refusal? line).map (complaint name number)).toList ++
        complaints name (number + 1) e rest := by
  unfold complaints
  rw [List.zipIdx_cons, List.filterMap_cons]
  dsimp only
  cases e.refusal? line with
  | none => rfl
  | some err => rfl

theorem length_complaints (lines : List String) :
    (complaints name number e lines).length =
      lines.countP fun line => (e.refusal? line).isSome := by
  induction lines generalizing number with
  | nil => rfl
  | cons line rest ih =>
    rw [complaints_cons, List.length_append, ih, List.countP_cons]
    cases e.refusal? line <;> simp [Nat.add_comm]

variable {before rest lines : List String}

/-- A script runs its lines, says what is wrong with the failing ones and counts them. -/
theorem runScript_append (stays : ∀ line ∈ before, quits line = false) :
    runScript name s t number failed (before ++ rest) =
      runScript name (s.enter before)
        { t with
          out := t.out ++ shows s before
          err := t.err ++ String.join (complaints name number e before) }
        (number + before.length)
        (failed + before.countP fun line => (e.refusal? line).isSome) rest := by
  induction before generalizing s t number failed with
  | nil => simp [Sheet.enter, shows, complaints]
  | cons line before ih =>
    obtain ⟨here, later⟩ := List.forall_mem_cons.mp stays
    have next : number + 1 + before.length = number + (before.length + 1) := by omega
    rw [List.cons_append, complaints_cons, List.countP_cons, List.length_cons, Sheet.enter, shows]
    cases h : s.execute line with
    | ok x =>
      obtain ⟨outcome, u⟩ := x
      rw [runScript_of_ok name t number failed _ here h, ih _ _ _ later, next,
        Sheet.refusal_of_execute h]
      simp [String.append_assoc]
    | error err =>
      have refused := s.execute_eq_error_iff.mp h
      rw [runScript_of_error name t number failed _ h, ih _ _ _ later, next, refused]
      simp [String.append_assoc, Nat.add_assoc, Nat.add_comm 1]

/-- Commands run lines as long as none of them fails. -/
theorem runCommands_append (stays : ∀ line ∈ before, quits line = false)
    (fine : ∀ line ∈ before, e.refusal? line = none) :
    runCommands s t (before ++ rest) =
      runCommands (s.enter before) { t with out := t.out ++ shows s before } rest := by
  induction before generalizing s t with
  | nil => simp [Sheet.enter, shows]
  | cons line before ih =>
    obtain ⟨here, later⟩ := List.forall_mem_cons.mp stays
    obtain ⟨accepted, fine⟩ := List.forall_mem_cons.mp fine
    obtain ⟨⟨outcome, u⟩, h⟩ := Sheet.execute_of_no_refusal s accepted
    rw [List.cons_append, runCommands_of_ok t _ here h, ih _ later fine, Sheet.enter, shows, h]
    simp [String.append_assoc]

theorem stays_of_mem_beforeQuit : ∀ line ∈ beforeQuit lines, quits line = false := by
  intro line h
  simpa using List.mem_takeWhile_imp h

theorem exists_eq_beforeQuit_append (lines : List String) :
    ∃ rest, beforeQuit lines ++ rest = lines ∧ ∀ line ∈ rest.head?, quits line = true := by
  refine ⟨lines.dropWhile fun line => !quits line, List.takeWhile_append_dropWhile, ?_⟩
  intro line first
  have h := List.head?_dropWhile_not (fun line => !quits line) lines
  rw [Option.mem_def.mp first] at h
  simpa using h

theorem runScript_of_ended (ended : ∀ line ∈ rest.head?, quits line = true) :
    runScript name s t number failed rest = runScript.finish name s t failed := by
  cases rest with
  | nil => rfl
  | cons line rest => exact runScript_of_quits name t number failed rest s (ended line rfl)

theorem runCommands_of_ended (ended : ∀ line ∈ rest.head?, quits line = true) :
    runCommands s t rest = { t with out := t.out ++ s.table } := by
  cases rest with
  | nil => rfl
  | cons line rest => exact runCommands_of_quits t rest s (ended line rfl)

theorem runScript_append_empty (lines : List String) :
    runScript name s t number failed (lines ++ [""]) = runScript name s t number failed lines := by
  induction lines generalizing s t number failed with
  | nil =>
    have nothing : s.execute "" = .ok (.nothing, s) := rfl
    rw [List.nil_append, runScript_of_ok name t number failed [] rfl nothing]
    simp [runScript, shownQuietly, shown, Outcome.text?]
  | cons line rest ih =>
    rw [List.cons_append]
    cases h : s.execute line with
    | error err =>
      rw [runScript_of_error name t number failed _ h, ih, runScript_of_error _ _ _ _ _ h]
    | ok x =>
      obtain ⟨outcome, u⟩ := x
      cases ending : quits line with
      | true => rw [runScript_of_quits _ _ _ _ _ _ ending, runScript_of_quits _ _ _ _ _ _ ending]
      | false =>
        rw [runScript_of_ok name t number failed _ ending h, ih,
          runScript_of_ok _ _ _ _ _ ending h]

theorem runScript_eq (s : Sheet e) (lines : List String) :
    runScript name s {} 1 0 lines =
      runScript.finish name (s.enter (beforeQuit lines))
        { out := shows s (beforeQuit lines)
          err := String.join (complaints name 1 e (beforeQuit lines)) }
        ((beforeQuit lines).countP fun line => (e.refusal? line).isSome) := by
  obtain ⟨rest, split, ended⟩ := exists_eq_beforeQuit_append lines
  rw [← split, runScript_append _ _ _ _ stays_of_mem_beforeQuit, runScript_of_ended _ _ _ _ ended,
    split]
  simp

theorem runScript_of_fine (s : Sheet e)
    (fine : ∀ line ∈ beforeQuit lines, e.refusal? line = none) :
    runScript name s {} 1 0 lines =
      { out := shows s (beforeQuit lines) ++ (s.enter (beforeQuit lines)).table } := by
  have none : ((beforeQuit lines).countP fun line => (e.refusal? line).isSome) = 0 :=
    List.countP_eq_zero.mpr fun line mem => by simp [fine line mem]
  have silent : complaints name 1 e (beforeQuit lines) = [] := by
    rw [← List.length_eq_zero_iff, length_complaints, none]
  rw [runScript_eq, none, silent]
  rfl

theorem runCommands_of_fine (s : Sheet e)
    (fine : ∀ line ∈ beforeQuit lines, e.refusal? line = none) :
    runCommands s {} lines =
      { out := shows s (beforeQuit lines) ++ (s.enter (beforeQuit lines)).table } := by
  obtain ⟨rest, split, ended⟩ := exists_eq_beforeQuit_append lines
  rw [← split, runCommands_append _ stays_of_mem_beforeQuit fine, runCommands_of_ended _ ended,
    split]
  simp

theorem runScript_of_refused (s : Sheet e)
    (refused : ∃ line ∈ beforeQuit lines, e.refusal? line ≠ none) :
    let ran := beforeQuit lines
    let failed := ran.countP fun line => (e.refusal? line).isSome
    runScript name s {} 1 0 lines =
      { out := shows s ran ++ (s.enter (ran.filter fun line => (e.refusal? line).isNone)).table
        err := String.join (complaints name 1 e ran) ++
          failureText s!"{failed} line(s) in '{name}' failed" []
        code := 1 } := by
  intro ran failed
  obtain ⟨line, mem, wrong⟩ := refused
  have some : failed ≠ 0 :=
    Nat.ne_of_gt (List.countP_pos_iff.mpr ⟨line, mem, Option.isSome_iff_ne_none.mpr wrong⟩)
  rw [runScript_eq, runScript.finish, if_neg some, Sheet.enter_filter]

theorem runCommands_of_refused {after : List String} {err : LineError} (s : Sheet e)
    (first : beforeQuit lines = before ++ line :: after)
    (fine : ∀ l ∈ before, e.refusal? l = none) (wrong : e.refusal? line = some err) :
    runCommands s {} lines =
      { out := shows s before
        err := failureText s!"Command failed: {line}" (lineCauses err)
        code := 1 } := by
  obtain ⟨rest, split, -⟩ := exists_eq_beforeQuit_append lines
  have stays : ∀ l ∈ before, quits l = false := fun l hl =>
    stays_of_mem_beforeQuit l (first ▸ List.mem_append_left _ hl)
  rw [← split, first, List.append_assoc, runCommands_append _ stays fine, List.cons_append,
    runCommands, Sheet.execute_of_refusal _ wrong]
  simp

theorem exists_first_refused (refused : ∃ line ∈ lines, e.refusal? line ≠ none) :
    ∃ before line after err, lines = before ++ line :: after ∧
      (∀ l ∈ before, e.refusal? l = none) ∧ e.refusal? line = some err := by
  obtain ⟨line, mem, wrong⟩ := refused
  have found : (lines.find? fun l => (e.refusal? l).isSome).isSome = true :=
    List.find?_isSome.mpr ⟨line, mem, Option.isSome_iff_ne_none.mpr wrong⟩
  obtain ⟨first, hfirst⟩ := Option.isSome_iff_exists.mp found
  obtain ⟨wrong, before, after, split, fine⟩ := List.find?_eq_some_iff_append.mp hfirst
  obtain ⟨err, herr⟩ := Option.isSome_iff_exists.mp wrong
  exact ⟨before, first, after, err, split, fun l hl => by simpa using fine l hl, herr⟩

theorem run_extent (e : Extent) (mode : Mode) : run e.rows e.cols mode = runMode e mode := by
  have valid : (0 < e.rows ∧ e.rows ≤ maxRows) ∧ 0 < e.cols ∧ e.cols ≤ maxCols :=
    ⟨⟨e.rows_pos, e.rows_le⟩, e.cols_pos, e.cols_le⟩
  rw [run, Extent.of, dif_pos valid]

theorem runScript_congr {lines lines' : List String}
    (same : lines.map trimmed = lines'.map trimmed) :
    runScript name s t number failed lines = runScript name s t number failed lines' := by
  induction lines generalizing s t number failed lines' with
  | nil =>
    obtain rfl := List.map_eq_nil_iff.mp same.symm
    rfl
  | cons line rest ih =>
    obtain ⟨line', rest', rfl, here, later⟩ := List.map_eq_cons_iff.mp same.symm
    rw [runScript, runScript, ← s.execute_congr here]
    split
    · rfl
    · exact ih _ _ _ later.symm
    · exact ih _ _ _ later.symm

theorem run_script (e : Extent) {text : String} (typed : String) (written : Writes text lines)
    (unbroken : ∀ line ∈ lines, '\n' ∉ line.toList) :
    run e.rows e.cols (.of (some (name, text)) [] typed) =
      runScript name (Sheet.blank e) {} 1 0 lines := by
  rw [run_extent, Mode.of, runMode]
  rcases linesOf_of_writes written unbroken with same | more
  · exact runScript_congr name _ 1 0 same
  · rw [← runScript_append_empty]
    exact runScript_congr name _ 1 0 more

theorem run_commands (e : Extent) (typed : String) (given : lines ≠ []) :
    run e.rows e.cols (.of none lines typed) = runCommands (Sheet.blank e) {} lines := by
  rw [run_extent, Mode.of, List.isEmpty_eq_false_iff.mpr given]
  rfl

/-- If none of the lines before the first that ends the run fails, a script and commands come to
the same. If some fail, the script runs the others all the same and says what is wrong with each of
these, and the commands end at the first. Which lines fail, and why, depends on the extent alone. -/
theorem script_and_commands_agree (e : Extent) {lines : List String} (given : lines ≠ [])
    (unbroken : ∀ line ∈ lines, '\n' ∉ line.toList) (name : String) {text : String}
    (written : Writes text lines) (typed : String) :
    let s := Sheet.blank e
    let ran := beforeQuit lines
    let failed := ran.countP fun line => (e.refusal? line).isSome
    let script := run e.rows e.cols (.of (some (name, text)) [] typed)
    let commands := run e.rows e.cols (.of none lines typed)
    (∀ (u : Sheet e) line err, u.execute line = .error err ↔ e.refusal? line = some err) ∧
      ((∀ line ∈ ran, e.refusal? line = none) →
        script = { out := shows s ran ++ (s.enter ran).table } ∧ commands = script) ∧
      ((∃ line ∈ ran, e.refusal? line ≠ none) →
        script =
          { out := shows s ran ++ (s.enter (ran.filter fun line => (e.refusal? line).isNone)).table
            err := String.join (complaints name 1 e ran) ++
              failureText s!"{failed} line(s) in '{name}' failed" []
            code := 1 } ∧
        ∃ before line after err, ran = before ++ line :: after ∧
          (∀ l ∈ before, e.refusal? l = none) ∧ e.refusal? line = some err ∧
          commands =
            { out := shows s before
              err := failureText s!"Command failed: {line}" (lineCauses err)
              code := 1 }) := by
  intro s ran failed script commands
  have asScript : script = runScript name s {} 1 0 lines := run_script name e typed written unbroken
  have asCommands : commands = runCommands s {} lines := run_commands e typed given
  rw [asScript, asCommands]
  refine ⟨fun u line err => u.execute_eq_error_iff, fun fine => ?_, fun refused => ⟨?_, ?_⟩⟩
  · have script := runScript_of_fine name s fine
    exact ⟨script, (runCommands_of_fine s fine).trans script.symm⟩
  · exact runScript_of_refused name s refused
  · obtain ⟨before, line, after, err, first, fine, wrong⟩ := exists_first_refused refused
    exact ⟨before, line, after, err, first, fine, wrong, runCommands_of_refused s first fine wrong⟩

/-- An unknown command between two lines that clear the screen. -/
theorem script_and_commands_agree_unknown_command :
    let s := Sheet.blank ⟨1, 1, by decide, by decide, by decide, by decide⟩
    let script := run 1 1 (.of (some ("a.txt", "/clear\n/x\n/clear")) [] "")
    let commands := run 1 1 (.of none ["/clear", "/x", "/clear"] "")
    script = { out := clearScreen ++ clearScreen ++ s.table
               err := "a.txt:2: Unknown command '/x' (try /help)\n" ++
                 "Error: 1 line(s) in 'a.txt' failed\n"
               code := 1 } ∧
      commands.code = 1 := by
  intro s script commands
  have written : Writes "/clear\n/x\n/clear" ["/clear", "/x", "/clear"] := Or.inr rfl
  have unbroken : ∀ line ∈ ["/clear", "/x", "/clear"], '\n' ∉ line.toList := by decide
  obtain ⟨-, -, some⟩ := script_and_commands_agree
    ⟨1, 1, by decide, by decide, by decide, by decide⟩ (by decide) unbroken "a.txt" written ""
  obtain ⟨script, before, line, after, err, -, -, -, commands⟩ :=
    some ⟨"/x", by decide, by decide⟩
  exact ⟨script, congrArg Transcript.code commands⟩

end Console

end ReactiveSheet
