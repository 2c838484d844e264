import ReactiveSheet.Console

/-!
The program: reads its arguments, runs, and writes what the run writes.

    --rows N, --cols N       the extent of the sheet, four by four if not given
    --script FILE, -s FILE   run the lines of a file
    --command LINE, -c LINE  run a line; may be given several times

Without a script or a command it shows a prompt; a script and commands exclude each other.
-/

namespace ReactiveSheet

structure Options where
  rows : Nat := 4
  cols : Nat := 4
  script : Option String := none
  commands : List String := []
  deriving DecidableEq, Repr

namespace Options

/-- A long option written with an equals sign as two arguments. -/
def separate (arg : String) : List String :=
  let cs := arg.toList
  let value := cs.dropWhile (· != '=')
  if cs.take 2 = ['-', '-'] && !value.isEmpty then
    [String.ofList (cs.takeWhile (· != '=')), String.ofList value.tail]
  else [arg]

def read (o : Options) : List String → Option Options
  | [] => some o
  | name :: value :: rest =>
    if name = "--rows" then value.toNat?.bind fun n => read { o with rows := n } rest
    else if name = "--cols" then value.toNat?.bind fun n => read { o with cols := n } rest
    else if name = "--script" || name = "-s" then read { o with script := some value } rest
    else if name = "--command" || name = "-c" then
      read { o with commands := o.commands ++ [value] } rest
    else none
  | [_] => none

def ofArgs (args : List String) : Option Options :=
  (read {} (args.flatMap separate)).filter fun o => o.script.isNone || o.commands.isEmpty

end Options

def report (t : Console.Transcript) : IO UInt32 := do
  (← IO.getStdout).putStr t.out
  (← IO.getStdout).flush
  (← IO.getStderr).putStr t.err
  return UInt32.ofNat t.code

/-- Answers one line after another until the input or the run ends. -/
partial def converse {e : Extent} (s : Sheet e) : IO Unit := do
  let out ← IO.getStdout
  out.putStr Console.promptText
  out.flush
  let line ← (← IO.getStdin).getLine
  if line.isEmpty then out.putStr "\n"
  else
    let (next, text, err) := Console.answer s line
    out.putStr text
    (← IO.getStderr).putStr err
    match next with
    | some s => converse s
    | none => return ()

def program (args : List String) : IO UInt32 := do
  match Options.ofArgs args with
  | none =>
    (← IO.getStderr).putStr "usage: [--rows N] [--cols N] [--script FILE | --command LINE ...]\n"
    return 2
  | some o =>
    match Extent.of o.rows o.cols with
    | .error err => report { err := Console.extentFailure err, code := 1 }
    | .ok e =>
      match o.script with
      | some name => report (Console.runMode e (.script name (← IO.FS.readFile name)))
      | none =>
        if o.commands.isEmpty then
          (← IO.getStdout).putStr (Console.greeting (Sheet.blank e))
          converse (Sheet.blank e)
          return 0
        else report (Console.runMode e (.commands o.commands))

end ReactiveSheet

def main (args : List String) : IO UInt32 := ReactiveSheet.program args
