import ReactiveSheet.Formula.Printer

/-!
What a formula is worth, given the values of cells.

Evaluation reads cells through a look-up that answers nothing for a cell that does not exist. A
fault met on the way ends it at once, except that a fault held by a cell that is merely referred
to is that reference's value; what is made of it depends on who reads it.
-/

namespace ReactiveSheet

namespace Formula

abbrev Outcome := Except Fault

def cellValue (cells : Address → Option Value) (a : Address) : Outcome Value :=
  match cells a with
  | some v => .ok v
  | none => .error .invalidOperand

def numberOf (v : Value) : Outcome Float :=
  match v with
  | .number n => .ok n
  | _ => .error .invalidOperand

def textOf (v : Value) : Outcome String :=
  match v with
  | .fault _ => .error .invalidOperand
  | v => .ok v.display

/-- A result too large for a number, or none at all, is no number. -/
def finite (n : Float) : Outcome Float :=
  if n.isFinite then .ok n else .error .invalidOperand

/-- The sum of some numbers, from left to right. The sum of none is zero below. -/
def sumOf (ns : List Float) : Float := ns.foldl (· + ·) (-0.0)

def productOf (ns : List Float) : Float := ns.foldl (· * ·) 1.0

def differenceOf : List Float → Float
  | [] => 0.0
  | first :: others => others.foldl (· - ·) first

def reduceNumbers (op : Reduction) (ns : List Float) : Outcome Float :=
  match op with
  | .sum => finite (sumOf ns)
  | .product => finite (productOf ns)
  | .difference => finite (differenceOf ns)
  | .average =>
    if ns.isEmpty then .error .divideByZero else finite (sumOf ns / Float.ofNat ns.length)
  | .join => .error .invalidOperand

def reduce (cells : Address → Option Value) (op : Reduction) (addrs : List Address) :
    Outcome Value :=
  match op with
  | .join => do
    let parts ← addrs.mapM fun a => do textOf (← cellValue cells a)
    return .text (String.join parts)
  | op => do
    let ns ← addrs.mapM fun a => do numberOf (← cellValue cells a)
    return .number (← reduceNumbers op ns)

/-- A chain of numbers, read once from left to right: `total` is the sum of the terms that are
complete, and `term` is the one being made of factors. -/
def runChain (total term : Float) : List (Operator × Float) → Outcome Float
  | [] => finite (total + term)
  | (op, n) :: rest =>
    match op with
    | .plus => runChain (total + term) n rest
    | .minus => runChain (total + term) (-n) rest
    | .times => runChain total (term * n) rest
    | .dividedBy => if n == 0.0 then .error .divideByZero else runChain total (term / n) rest

def compareNumbers (cmp : Comparator) (a b : Float) : Bool :=
  match cmp with
  | .greater => b < a
  | .less => a < b
  | .equal => a == b
  | .notEqual => a != b
  | .atLeast => b ≤ a
  | .atMost => a ≤ b

/-- How two values compare. Faults do not compare. Two numbers compare as numbers; all else
is only equal or not, by what is shown. -/
def compareValues (cmp : Comparator) (a b : Value) : Outcome Bool :=
  match a, b with
  | .fault _, _ => .error .invalidOperand
  | _, .fault _ => .error .invalidOperand
  | .number x, .number y => .ok (compareNumbers cmp x y)
  | a, b =>
    if cmp.isEquality then
      let equal := a.display == b.display
      .ok (if cmp = .equal then equal else !equal)
    else .error .invalidOperand

def outcome (cells : Address → Option Value) : Formula → Outcome Value
  | .literal v => .ok v
  | .reference a => cellValue cells a
  | .reduction op addrs => reduce cells op addrs
  | .chain first op second rest => do
    let head ← numberOf (← outcome cells first)
    let next ← numberOf (← outcome cells second)
    let others ← operands rest
    return .number (← runChain 0.0 head ((op, next) :: others))
  | .choice left cmp right yes no => do
    let a ← outcome cells left
    let b ← outcome cells right
    if ← compareValues cmp a b then outcome cells yes else outcome cells no
where
  operands : List (Operator × Formula) → Outcome (List (Operator × Float))
    | [] => .ok []
    | (op, operand) :: rest => do
      let n ← numberOf (← outcome cells operand)
      return (op, n) :: (← operands rest)

/-- The value that a cell with this formula is to hold: a fault that ended the evaluation is a
value like any other. -/
def evaluate (cells : Address → Option Value) (f : Formula) : Value :=
  match outcome cells f with
  | .ok v => v
  | .error cause => .fault cause

end Formula

end ReactiveSheet
