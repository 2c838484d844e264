import ReactiveSheet.Formula.Token
import ReactiveSheet.Proofs.Address.Rectangle

/-!
The grammar of formulas, and the texts and formulas of its derivations.

    formula    := expression
    expression := operand (operator operand)*
    operand    := number | text | cell | "(" expression ")" | "-" operand
                | reducer "(" [argument ("," argument)*] ")"
                | "IF" "(" expression comparator expression "," expression "," expression ")"
    argument   := cell | cell ":" cell

Nothing here is said by a scanner or a reader. A derivation is a tree with one constructor for each
alternative of the grammar. It has a list of terminals, which a text `Splits` into if it spells them
one after another, and it has a formula.
-/

namespace ReactiveSheet

inductive Terminal where
  | number (n : Float)
  | text (s : String)
  | cell (a : Address)
  | reducer (op : Reduction)
  | conditional
  | operator (op : Operator)
  | comparator (cmp : Comparator)
  | punctuation (p : Punctuation)

def Reduction.spellings : Reduction → List String
  | sum => ["SUM"]
  | product => ["PRODUCT"]
  | difference => ["DIFF", "DIFFERENCE"]
  | average => ["AVERAGE", "AVG"]
  | join => ["CONCAT"]

def Comparator.spellings : Comparator → List String
  | greater => [">"]
  | less => ["<"]
  | equal => ["=", "=="]
  | notEqual => ["!=", "<>"]
  | atLeast => [">="]
  | atMost => ["<="]

namespace Terminal

/-- How a terminal may be written. Names may be in either case, and a quote inside a text is
written twice. -/
inductive Spelled : Terminal → List Char → Prop where
  | number {cs : List Char} {d : Decimal} (reads : Numeral.decimal? cs = some d)
      (finite : d.toFloat.isFinite = true) : Spelled (.number d.toFloat) cs
  | text (s : String) : Spelled (.text s) (Formula.quoted s).toList
  | cell {letters digits : List Char} {a : Address} (some : letters ≠ [])
      (alpha : ∀ c ∈ letters, c.isAlpha = true) (some' : digits ≠ [])
      (digit : ∀ c ∈ digits, c.isDigit = true)
      (reads : Address.ofChars (letters ++ digits) = .ok a) : Spelled (.cell a) (letters ++ digits)
  | reducer {op : Reduction} {name : String} {cs : List Char} (known : name ∈ op.spellings)
      (same : cs.map Char.toUpper = name.toList) : Spelled (.reducer op) cs
  | conditional {cs : List Char} (same : cs.map Char.toUpper = ['I', 'F']) :
    Spelled .conditional cs
  | operator (op : Operator) : Spelled (.operator op) [op.symbol]
  | comparator {cmp : Comparator} {symbol : String} (known : symbol ∈ cmp.spellings) :
    Spelled (.comparator cmp) symbol.toList
  | punctuation (p : Punctuation) : Spelled (.punctuation p) [p.symbol]

/-- The text spells these terminals in this order, with nothing but blanks around and between
them. -/
inductive Splits : List Char → List Terminal → Prop where
  | done {blanks : List Char} (blank : ∀ c ∈ blanks, Text.isBlank c = true) : Splits blanks []
  | next {blanks piece rest : List Char} {x : Terminal} {xs : List Terminal}
      (blank : ∀ c ∈ blanks, Text.isBlank c = true) (spelled : x.Spelled piece)
      (others : Splits rest xs) : Splits (blanks ++ (piece ++ rest)) (x :: xs)

end Terminal

namespace Derivation

inductive Argument where
  | cell (a : Address)
  | rectangle (r : Rectangle)

mutual
inductive Operand where
  | number (n : Float)
  | text (s : String)
  | cell (a : Address)
  | parentheses (inner : Expression)
  | minus (inner : Operand)
  | reduction (op : Reduction) (arguments : List Argument)
  | choice (left : Expression) (cmp : Comparator) (right yes no : Expression)
inductive Expression where
  | chain (first : Operand) (rest : Tail)
inductive Tail where
  | nil
  | cons (op : Operator) (operand : Operand) (rest : Tail)
end

def Argument.terminals : Argument → List Terminal
  | cell a => [.cell a]
  | rectangle r => [.cell r.first, .punctuation .colon, .cell r.last]

def argumentTerminals : List Argument → List Terminal
  | [] => []
  | first :: others =>
    first.terminals ++ others.flatMap fun a => .punctuation .comma :: a.terminals

mutual
/-- The terminals of a derivation, from left to right. -/
def Operand.terminals : Operand → List Terminal
  | .number n => [.number n]
  | .text s => [.text s]
  | .cell a => [.cell a]
  | .parentheses inner => .punctuation .opening :: inner.terminals ++ [.punctuation .closing]
  | .minus inner => .operator .minus :: inner.terminals
  | .reduction op arguments =>
    .reducer op :: .punctuation .opening :: argumentTerminals arguments ++ [.punctuation .closing]
  | .choice left cmp right yes no =>
    .conditional :: .punctuation .opening :: left.terminals ++ .comparator cmp :: right.terminals ++
      .punctuation .comma :: yes.terminals ++ .punctuation .comma :: no.terminals ++
      [.punctuation .closing]
def Expression.terminals : Expression → List Terminal
  | .chain first rest => first.terminals ++ rest.terminals
def Tail.terminals : Tail → List Terminal
  | .nil => []
  | .cons op operand rest => .operator op :: operand.terminals ++ rest.terminals
end

mutual
/-- How many operands lie in one another at the deepest place. -/
def Operand.depth : Operand → Nat
  | .number _ => 1
  | .text _ => 1
  | .cell _ => 1
  | .parentheses inner => inner.depth + 1
  | .minus inner => inner.depth + 1
  | .reduction _ _ => 1
  | .choice left _ right yes no =>
    max (max left.depth right.depth) (max yes.depth no.depth) + 1
def Expression.depth : Expression → Nat
  | .chain first rest => max first.depth rest.depth
def Tail.depth : Tail → Nat
  | .nil => 0
  | .cons _ operand rest => max operand.depth rest.depth
end

def Argument.rectangles : Argument → List Rectangle
  | .cell _ => []
  | .rectangle r => [r]

mutual
def Operand.rectangles : Operand → List Rectangle
  | .number _ => []
  | .text _ => []
  | .cell _ => []
  | .parentheses inner => inner.rectangles
  | .minus inner => inner.rectangles
  | .reduction _ arguments => arguments.flatMap Argument.rectangles
  | .choice left _ right yes no =>
    left.rectangles ++ right.rectangles ++ yes.rectangles ++ no.rectangles
def Expression.rectangles : Expression → List Rectangle
  | .chain first rest => first.rectangles ++ rest.rectangles
def Tail.rectangles : Tail → List Rectangle
  | .nil => []
  | .cons _ operand rest => operand.rectangles ++ rest.rectangles
end

def Argument.cells : Argument → List Address
  | .cell a => [a]
  | .rectangle r => r.rowByRow

mutual
/-- The formula that a derivation stands for. A minus sign changes the sign of a number and takes
anything else from zero; all operands of an expression make one chain. -/
def Operand.formula : Operand → Formula
  | .number n => .literal (.number n)
  | .text s => .literal (.text s)
  | .cell a => .reference a
  | .parentheses inner => inner.formula
  | .minus inner =>
    match inner.formula with
    | .literal (.number n) => .literal (.number (-n))
    | f => .chain (.literal (.number 0)) .minus f []
  | .reduction op arguments => .reduction op (arguments.flatMap Argument.cells)
  | .choice left cmp right yes no =>
    .choice left.formula cmp right.formula yes.formula no.formula
def Expression.formula : Expression → Formula
  | .chain first rest =>
    match rest.operands with
    | [] => first.formula
    | (op, second) :: others => .chain first.formula op second others
def Tail.operands : Tail → List (Operator × Formula)
  | .nil => []
  | .cons op operand rest => (op, operand.formula) :: rest.operands
end

theorem Operand.formula_minus (inner : Operand) :
    (Operand.minus inner).formula = inner.formula.negated := by
  rw [Operand.formula]
  cases inner.formula with
  | literal v => cases v <;> rfl
  | _ => rfl

theorem Expression.formula_chain (first : Operand) (rest : Tail) :
    (Expression.chain first rest).formula = .ofChain first.formula rest.operands := by
  rw [Expression.formula]
  cases rest.operands with
  | nil => rfl
  | cons p others => rfl

end Derivation

/-- The part of a text that is read as a formula: all but the blanks around it and the equals sign
that it may start with. -/
inductive Formula.Inner (text : String) : List Char → Prop where
  | signed {cs : List Char} (trimmed : Text.trim text.toList = '=' :: cs) : Inner text cs
  | plain {cs : List Char} (trimmed : Text.trim text.toList = cs) (unsigned : cs.head? ≠ some '=') :
    Inner text cs

end ReactiveSheet
