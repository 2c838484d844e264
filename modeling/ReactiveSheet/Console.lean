import ReactiveSheet.Session

/-!
The program as seen from a terminal: what it writes, and how it ends.

There are three ways to give it lines: at the prompt, one answer after each line; as a script,
where failing lines are reported by number and the others still run; and as commands, where the
first failure ends the run. Scripts and commands show the table at the end and say nothing about
assignments.
-/

namespace ReactiveSheet.Console

structure Transcript where
  out : String := ""
  err : String := ""
  code : Nat := 0
  deriving DecidableEq, Repr

inductive Mode where
  | prompt (typed : String)
  | script (name text : String)
  | commands (lines : List String)
  deriving DecidableEq, Repr

/-- A script goes before commands, and commands before the prompt. -/
def Mode.of (script : Option (String × String)) (commands : List String) (typed : String) : Mode :=
  match script with
  | some (name, text) => .script name text
  | none => if commands.isEmpty then .prompt typed else .commands commands

/-- A cause, indented. Further lines of it are indented like the first, numbered or not. -/
def indented (number : Option Nat) (cause : String) : String :=
  let first := match number with
    | some n => String.ofList ((toString n).toList.leftpad 5 ' ') ++ ": "
    | none => "    "
  let other := match number with
    | some _ => "\n       "
    | none => "\n    "
  first ++ String.ofList (cause.toList.flatMap fun c => if c = '\n' then other.toList else [c])
    ++ "\n"

def causesText : List String → String
  | [] => ""
  | [cause] => "\nCaused by:\n" ++ indented none cause
  | causes => "\nCaused by:\n" ++ String.join (causes.mapIdx fun n cause => indented (some n) cause)

def failureText (failure : String) (causes : List String) : String :=
  "Error: " ++ failure ++ "\n" ++ causesText causes

/-- The causes of a line's failure: the failure itself and, where a reference is at fault, what is
wrong with the reference. -/
def lineCauses (err : LineError) : List String :=
  match err with
  | .formula (.reference cause) => [err.message, cause.message]
  | err => [err.message]

variable {e : Extent}

def clearScreen : String := "\x1b[2J\x1b[1;1H"

def shown (outcome : Outcome) (s : Sheet e) : String :=
  match outcome with
  | .clear => clearScreen
  | outcome => (outcome.text? s).getD ""

/-- What is shown of an outcome where assignments pass without a word. -/
def shownQuietly (outcome : Outcome) (s : Sheet e) : String :=
  match outcome with
  | .assigned _ _ => ""
  | outcome => shown outcome s

def promptText : String := "scriptsheet > "

def greeting (s : Sheet e) : String :=
  "> Welcome to scriptsheet !\n" ++ "> Here are some helpful commands to get you started :\n" ++
    helpText ++ "\n" ++ s.table

/-- The answer to a line at the prompt: the next sheet, unless the line ends the run, and what is
written on the output and apart from it. -/
def answer (s : Sheet e) (line : String) : Option (Sheet e) × String × String :=
  match s.execute line with
  | .ok (.quit, _) => (none, "", "")
  | .ok (outcome, s) => (some s, shown outcome s, "")
  | .error err => (some s, "", s!"error: {err.message}\n")

/-- Runs lines at the prompt. The end of the lines ends the run and the line of the prompt. -/
def runPrompt (s : Sheet e) (t : Transcript) : List String → Transcript
  | [] => { t with out := t.out ++ promptText ++ "\n" }
  | line :: rest =>
    match answer s line with
    | (none, out, err) => { t with out := t.out ++ promptText ++ out, err := t.err ++ err }
    | (some s, out, err) =>
      runPrompt s { t with out := t.out ++ promptText ++ out, err := t.err ++ err } rest

def runScript (name : String) (s : Sheet e) (t : Transcript) (number failed : Nat) :
    List String → Transcript
  | [] => finish s t failed
  | line :: rest =>
    match s.execute line with
    | .ok (.quit, _) => finish s t failed
    | .ok (outcome, s) =>
      runScript name s { t with out := t.out ++ shownQuietly outcome s } (number + 1) failed rest
    | .error err =>
      let t := { t with err := t.err ++ s!"{name}:{number}: {err.message}\n" }
      runScript name s t (number + 1) (failed + 1) rest
where
  /-- The end of a script: the table, and the number of failures if there were any. -/
  finish (s : Sheet e) (t : Transcript) (failed : Nat) : Transcript :=
    let t := { t with out := t.out ++ s.table }
    if failed = 0 then t
    else
      let summary := failureText s!"{failed} line(s) in '{name}' failed" []
      { t with err := t.err ++ summary, code := 1 }

def runCommands (s : Sheet e) (t : Transcript) : List String → Transcript
  | [] => { t with out := t.out ++ s.table }
  | line :: rest =>
    match s.execute line with
    | .ok (.quit, _) => { t with out := t.out ++ s.table }
    | .ok (outcome, s) => runCommands s { t with out := t.out ++ shownQuietly outcome s } rest
    | .error err =>
      { t with err := t.err ++ failureText s!"Command failed: {line}" (lineCauses err), code := 1 }

def linesOf (text : String) : List String := (Text.lines text).map String.ofList

def runMode (e : Extent) : Mode → Transcript
  | .prompt typed =>
    let s := Sheet.blank e
    runPrompt s { out := greeting s } (linesOf typed)
  | .script name text => runScript name (Sheet.blank e) {} 1 0 (linesOf text)
  | .commands lines => runCommands (Sheet.blank e) {} lines

def extentFailure (err : ExtentError) : String :=
  failureText s!"Cannot create a {err.rows}x{err.cols} grid" [err.message]

def run (rows cols : Nat) (mode : Mode) : Transcript :=
  match Extent.of rows cols with
  | .error err => { err := extentFailure err, code := 1 }
  | .ok e => runMode e mode

end ReactiveSheet.Console
