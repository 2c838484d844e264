import ReactiveSheet.Formula.Grammar
import ReactiveSheet.Sheet.Edit

/-!
Lines and what they do to a sheet.

A line without the blanks around it is nothing if it is empty or starts with `#`, a command if it
starts with a slash, and otherwise an assignment: a cell, an equals sign and a formula after another
equals sign, a text in quotes, or whatever the typed text stands for. A line that cannot be carried
out leaves no new sheet, so whoever gave it keeps the old one; any other line has an outcome.

A table shows values or links. It has a border above its headers, below them and at its end, and
every column is as wide as its widest entry, with a space on either side.

`InPlace` carries out edits and lines on one sheet that an action changes step by step. Nothing is
undone there, so an action leaves no trace of its failure only if each check that may fail comes
before the first change.
-/

namespace ReactiveSheet

inductive Input where
  | literal (s : String)
  | text (s : String)
  | formula (s : String)
  deriving DecidableEq, Repr

inductive Command where
  | assign (target : Address) (input : Input)
  | help
  | table
  | dependencies
  | clear
  | quit
  | nothing
  deriving DecidableEq, Repr

inductive LineError where
  | unknownCommand (name : String)
  | malformed (line : String)
  | formula (cause : FormulaError)
  | place (cause : PlaceError)

def LineError.message : LineError → String
  | .unknownCommand name => s!"Unknown command '/{name}' (try /help)"
  | .malformed line => s!"Cannot understand '{line}' (expected CELL = value or a /command)"
  | .formula cause => cause.message
  | .place cause => cause.message

/-- Reads what stands on the right of an assignment. Only the quotes at both ends of a text are
dropped; those inside stay as they are. -/
def Input.ofChars (cs : List Char) : Input :=
  match Text.trim cs with
  | '=' :: rest => .formula (String.ofList (Text.trim rest))
  | '"' :: rest =>
    if rest.getLast? = some '"' then .text (String.ofList rest.dropLast)
    else .literal (String.ofList ('"' :: rest))
  | cs => .literal (String.ofList cs)

namespace Command

def names : List (String × Command) :=
  [("help", help), ("h", help), ("?", help), ("table", table),
   ("dependencies", dependencies), ("deps", dependencies), ("clear", clear),
   ("quit", quit), ("exit", quit), ("q", quit)]

/-- Finds a command by name, whatever the case. Command names are ASCII, and nothing with a letter
outside ASCII becomes one in small letters. -/
def ofName (name : List Char) : Except LineError Command :=
  match names.lookup (String.ofList (Text.lowered name)) with
  | some command => .ok command
  | none => .error (.unknownCommand (String.ofList name))

/-- Splits an assignment into the name of a cell and the right side without leading blanks. The
right side must lie on one line. -/
def sides? (cs : List Char) : Option (List Char × List Char) :=
  let letters := cs.takeWhile Char.isAlpha
  let rest := cs.dropWhile Char.isAlpha
  let digits := rest.takeWhile Char.isDigit
  if letters.isEmpty || digits.isEmpty then none
  else
    match Text.trimLeft (rest.dropWhile Char.isDigit) with
    | '=' :: right =>
      let right := Text.trimLeft right
      if right.contains '\n' then none else some (letters ++ digits, right)
    | _ => none

def assignment (cs : List Char) : Except LineError Command :=
  match sides? cs with
  | none => .error (.malformed (String.ofList cs))
  | some (target, right) =>
    match Address.ofChars target with
    | .error cause => .error (.place cause)
    | .ok a => .ok (.assign a (Input.ofChars right))

def ofLine (line : String) : Except LineError Command :=
  match Text.trim line.toList with
  | [] => .ok .nothing
  | '#' :: _ => .ok .nothing
  | '/' :: name => ofName (Text.trim name)
  | cs => assignment cs

end Command

inductive Align where
  | left
  | right
  deriving DecidableEq, Repr

structure Entry where
  text : List Char
  align : Align
  deriving DecidableEq, Repr

namespace Table

def entry (s : String) : Entry := ⟨s.toList, .left⟩

def padded (width : Nat) (entry : Entry) : List Char :=
  match entry.align with
  | .left => entry.text.rightpad width ' '
  | .right => entry.text.leftpad width ' '

def widen (widths : List Nat) (row : List Entry) : List Nat :=
  widths.zipWith (fun width entry => max width entry.text.length) row

def border (widths : List Nat) : List Char :=
  '+' :: widths.flatMap fun width => List.replicate (width + 2) '-' ++ ['+']

def line (widths : List Nat) (row : List Entry) : List Char :=
  '|' :: (row.zipWith (fun entry width => ' ' :: padded width entry ++ [' ', '|']) widths).flatten

def lines (headers : List Entry) (rows : List (List Entry)) : List (List Char) :=
  let widths := rows.foldl widen (headers.map fun h => h.text.length)
  [border widths, line widths headers, border widths] ++ rows.map (line widths) ++ [border widths]

def draw (headers : List Entry) (rows : List (List Entry)) : String :=
  String.ofList ((lines headers rows).flatMap fun line => line ++ ['\n'])

end Table

def Value.entry (v : Value) : Entry := ⟨v.display.toList, if v.isNumber then .right else .left⟩

def Extent.headers (e : Extent) : List Entry :=
  Table.entry "" :: (List.range e.cols).map fun col => Table.entry (Column.letters col)

def Table.numbered (values : List Value) (row : Nat) : List Entry :=
  ⟨(toString (row + 1)).toList, .right⟩ :: values.map Value.entry

def Snapshot.table {e : Extent} (p : Snapshot e) : String :=
  Table.draw e.headers (p.rows.mapIdx fun row values => Table.numbered values row)

def Sheet.table {e : Extent} (s : Sheet e) : String := s.snapshot.table

def Table.linkEntry (addrs : List Address) : Entry :=
  Table.entry (if addrs.isEmpty then "-" else Address.labels addrs)

/-- The table of the cells with a formula or with links. -/
def Sheet.dependencies {e : Extent} (s : Sheet e) : String :=
  let rows := s.linkedCells.map fun c =>
    [Table.entry c.address.label, Table.linkEntry c.parents, Table.linkEntry c.children]
  if rows.isEmpty then "No dependencies\n"
  else Table.draw (["cell", "parents", "children"].map Table.entry) rows

inductive Outcome where
  | assigned (target : Address) (report : Report)
  | table
  | dependencies
  | help
  | clear
  | quit
  | nothing
  deriving DecidableEq, Repr

def helpText : String :=
  "Assign a cell:\n" ++
  "  A1 = 42             number\n" ++
  "  A2 = hello          text\n" ++
  "  A3 = \"42\"           quoted text\n" ++
  "  B1 = =SUM(A1:A3)    formula\n" ++
  "\n" ++
  "Formulas:\n" ++
  "  arithmetic          =A1 + 2 * (B1 - 1)\n" ++
  "  reductions          =SUM(A1:B2)  PRODUCT  DIFF  AVERAGE (AVG)  CONCAT\n" ++
  "  conditional         =IF(A1 > 0, \"yes\", \"no\")   > < = == != <> >= <=\n" ++
  "\n" ++
  "Commands:\n" ++
  "  /table              show the grid\n" ++
  "  /dependencies       show cell links (alias /deps)\n" ++
  "  /clear              clear the screen\n" ++
  "  /help               show this help\n" ++
  "  /quit               leave (alias /exit)\n"

def Outcome.text? {e : Extent} (outcome : Outcome) (s : Sheet e) : Option String :=
  match outcome with
  | .assigned _ _ => some s.table
  | .table => some s.table
  | .dependencies => some s.dependencies
  | .help => some helpText
  | .clear => none
  | .quit => none
  | .nothing => none

namespace Sheet

variable {e : Extent}

def ofEdit {α : Type} : Except PlaceError α → Except LineError α
  | .ok x => .ok x
  | .error cause => .error (.place cause)

/-- Puts input into a cell. The cell must lie inside before its input is read. -/
def assign (s : Sheet e) (target : Address) (input : Input) :
    Except LineError (Sheet e × Report) := do
  ofEdit (e.check target)
  match input with
  | .literal text => ofEdit (s.setTyped target text)
  | .text text => ofEdit (s.setValue target (.text text))
  | .formula text =>
    match Formula.ofText e text with
    | .error cause => .error (.formula cause)
    | .ok f => ofEdit (s.setFormula target f)

def obey (s : Sheet e) : Command → Except LineError (Outcome × Sheet e)
  | .assign target input => do
    let (s, report) ← s.assign target input
    return (.assigned target report, s)
  | .help => .ok (.help, s)
  | .table => .ok (.table, s)
  | .dependencies => .ok (.dependencies, s)
  | .clear => .ok (.clear, s)
  | .quit => .ok (.quit, s)
  | .nothing => .ok (.nothing, s)

def execute (s : Sheet e) (line : String) : Except LineError (Outcome × Sheet e) := do
  s.obey (← Command.ofLine line)

end Sheet

/-- Actions on a sheet that may fail and leave the sheet as it is then. -/
abbrev InPlace (e : Extent) (ε α : Type) := ExceptT ε (StateM (Sheet e)) α

namespace InPlace

variable {e : Extent} {ε α : Type}

def require (x : Except ε α) : InPlace e ε α := ExceptT.mk (pure x)

def change (f : Sheet e → Sheet e × α) : InPlace e ε α :=
  modifyGet fun s => ((f s).2, (f s).1)

def check (a : Address) : InPlace e PlaceError Unit := require (e.check a)

def relink (a : Address) (parents : List Address) : InPlace e ε Unit :=
  change fun s => (s.relink a parents, ())

def putFormula (a : Address) (formula : Option Formula) : InPlace e ε Unit :=
  change fun s => (s.modify a fun c => { c with formula }, ())

def follow (a : Address) : Report × Bool → InPlace e ε Report
  | (r, changed) => if changed then change fun s => s.propagate a r else return r

def setValue (a : Address) (v : Value) : InPlace e PlaceError Report := do
  check a
  relink a []
  putFormula a none
  follow a (← change fun s => s.store a v.storable {})

def setTyped (a : Address) (text : String) : InPlace e PlaceError Report :=
  setValue a (.ofTyped text)

def setFormula (a : Address) (f : Formula) : InPlace e PlaceError Report := do
  check a
  f.references.forM check
  relink a f.references
  putFormula a (some f)
  follow a (← change fun s => s.settle a f {})

def edit (a : Address) : Edit → InPlace e PlaceError Report
  | .typed text => setTyped a text
  | .value v => setValue a v
  | .formula f => setFormula a f

def place (action : InPlace e PlaceError α) : InPlace e LineError α :=
  ExceptT.adapt LineError.place action

def assign (target : Address) (input : Input) : InPlace e LineError Report := do
  place (check target)
  match input with
  | .literal text => place (setTyped target text)
  | .text text => place (setValue target (.text text))
  | .formula text =>
    let f ← require ((Formula.ofText e text).mapError LineError.formula)
    place (setFormula target f)

def obey : Command → InPlace e LineError Outcome
  | .assign target input => return .assigned target (← assign target input)
  | .help => return .help
  | .table => return .table
  | .dependencies => return .dependencies
  | .clear => return .clear
  | .quit => return .quit
  | .nothing => return .nothing

def execute (line : String) : InPlace e LineError Outcome := do
  obey (← require (Command.ofLine line))

end InPlace

end ReactiveSheet
