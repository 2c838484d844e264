import ReactiveSheet.Value

/-!
Formulas as trees with their operators, and formulas in writing.

A chain of arithmetic is one node, however long it is and whatever operators it mixes; only its
evaluation knows that some bind tighter than others. In writing, an operand that is itself a chain
stands in parentheses, and nothing else does. A text stands in quotes, and a quote inside it is
written twice.
-/

namespace ReactiveSheet

inductive Operator where
  | plus
  | minus
  | times
  | dividedBy
  deriving DecidableEq, Repr

namespace Operator

def symbol : Operator → Char
  | plus => '+'
  | minus => '-'
  | times => '*'
  | dividedBy => '/'

def ofSymbol? : Char → Option Operator
  | '+' => some plus
  | '-' => some minus
  | '*' => some times
  | '/' => some dividedBy
  | _ => none

end Operator

inductive Comparator where
  | greater
  | less
  | equal
  | notEqual
  | atLeast
  | atMost
  deriving DecidableEq, Repr

namespace Comparator

def symbol : Comparator → String
  | greater => ">"
  | less => "<"
  | equal => "=="
  | notEqual => "!="
  | atLeast => ">="
  | atMost => "<="

def ofSymbol? (text : String) : Option Comparator :=
  if text = ">" then some greater
  else if text = "<" then some less
  else if text = "==" || text = "=" then some equal
  else if text = "!=" || text = "<>" then some notEqual
  else if text = ">=" then some atLeast
  else if text = "<=" then some atMost
  else none

def isEquality (cmp : Comparator) : Bool := cmp = equal || cmp = notEqual

end Comparator

inductive Reduction where
  | sum
  | product
  | difference
  | average
  | join
  deriving DecidableEq, Repr

namespace Reduction

def name : Reduction → String
  | sum => "SUM"
  | product => "PRODUCT"
  | difference => "DIFF"
  | average => "AVERAGE"
  | join => "CONCAT"

/-- The names of all reductions in capitals, two of which have a second one. -/
def names : List (String × Reduction) :=
  [("SUM", sum), ("PRODUCT", product), ("DIFF", difference), ("DIFFERENCE", difference),
   ("AVERAGE", average), ("AVG", average), ("CONCAT", join)]

def ofName? (text : String) : Option Reduction :=
  names.lookup (String.ofList (Text.capitals text.toList))

theorem ofName?_name (r : Reduction) : ofName? r.name = some r := by
  cases r <;> decide

end Reduction

inductive Formula where
  | literal (v : Value)
  /-- The value of another cell, whatever it is. -/
  | reference (a : Address)
  /-- One value made of the values of some cells, in their order. -/
  | reduction (op : Reduction) (cells : List Address)
  /-- Two operands or more in a row, joined by operators. -/
  | chain (first : Formula) (op : Operator) (second : Formula) (rest : List (Operator × Formula))
  /-- One of two formulas, by the outcome of a comparison. -/
  | choice (left : Formula) (cmp : Comparator) (right : Formula) (yes no : Formula)

namespace Formula

instance : Inhabited Formula := ⟨.literal .empty⟩

/-- Operands in a row as one formula; a single operand is that operand. -/
def ofChain (first : Formula) : List (Operator × Formula) → Formula
  | [] => first
  | (op, second) :: rest => .chain first op second rest

/-- The operand with its sign changed: a number is negated, anything else is taken from zero. -/
def negated : Formula → Formula
  | .literal (.number n) => .literal (.number (-n))
  | operand => .chain (.literal (.number 0)) .minus operand []

/-- Whether two formulas are the same to whoever reads them: built alike, with the same values for
constants. -/
def same : Formula → Formula → Bool
  | .literal v, .literal w => v == w
  | .reference a, .reference b => a = b
  | .reduction op cells, .reduction op' cells' => op = op' && cells = cells'
  | .chain first op second rest, .chain first' op' second' rest' =>
    same first first' && op = op' && same second second' && sameRest rest rest'
  | .choice left cmp right yes no, .choice left' cmp' right' yes' no' =>
    same left left' && cmp = cmp' && same right right' && same yes yes' && same no no'
  | _, _ => false
where
  sameRest : List (Operator × Formula) → List (Operator × Formula) → Bool
    | [], [] => true
    | (op, operand) :: rest, (op', operand') :: rest' =>
      op = op' && same operand operand' && sameRest rest rest'
    | _, _ => false

instance : BEq Formula := ⟨same⟩

def mentions : Formula → List Address
  | .literal _ => []
  | .reference a => [a]
  | .reduction _ cells => cells
  | .chain first _ second rest => mentions first ++ mentions second ++ mentionsRest rest
  | .choice left _ right yes no =>
    mentions left ++ mentions right ++ mentions yes ++ mentions no
where
  mentionsRest : List (Operator × Formula) → List Address
    | [] => []
    | (_, operand) :: rest => mentions operand ++ mentionsRest rest

/-- The set of the cells that a formula reads. Both branches of a choice count. -/
def references (f : Formula) : List Address := Address.setOf f.mentions

def quoted (s : String) : String :=
  String.ofList ('"' :: s.toList.flatMap (fun c => if c = '"' then ['"', '"'] else [c]) ++ ['"'])

def literalText : Value → String
  | .text s => quoted s
  | v => v.display

/-- A chain keeps its operands apart by parentheses; other formulas need none. -/
def enclosed (f : Formula) (text : String) : String :=
  match f with
  | .chain .. => "(" ++ text ++ ")"
  | _ => text

def spaced (symbol : String) : String := " " ++ symbol ++ " "

def display : Formula → String
  | .literal v => literalText v
  | .reference a => a.label
  | .reduction op cells => op.name ++ "(" ++ Address.labels cells ++ ")"
  | .chain first op second rest =>
    enclosed first (display first) ++ spaced op.symbol.toString ++
      enclosed second (display second) ++ displayRest rest
  | .choice left cmp right yes no =>
    "IF(" ++ display left ++ spaced cmp.symbol ++ display right ++ ", " ++ display yes ++ ", " ++
      display no ++ ")"
where
  displayRest : List (Operator × Formula) → String
    | [] => ""
    | (op, operand) :: rest =>
      spaced op.symbol.toString ++ enclosed operand (display operand) ++ displayRest rest

end Formula

end ReactiveSheet
