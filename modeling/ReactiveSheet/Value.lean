import ReactiveSheet.Address

/-!
The values that cells hold and formulas give: numbers, texts and faults.

Values are compared as recalculation needs it: numbers by their size, so that zero has no sign,
and texts and faults by what they are. The number that is no number differs from every value,
itself included.

A typed number is an optional sign, digits with an optional point among or around them, and an
optional exponent, or a word for infinity or for no number. It is rounded to the nearest double. The
text of a double is the fewest digits that read back as the same double, never with an exponent: the
powers of ten are tried downwards, and of the two multiples of each on either side of the number the
first that reads back is written. Seventeen significant digits always suffice.
-/

namespace ReactiveSheet

structure Decimal where
  mantissa : Nat
  exponent : Int
  deriving DecidableEq, Repr

namespace Decimal

def toFloat (d : Decimal) : Float :=
  Float.ofScientific d.mantissa (d.exponent < 0) d.exponent.natAbs

def positional (d : Decimal) : Decimal :=
  if 0 ≤ d.exponent then ⟨d.mantissa * Nat.pow 10 d.exponent.toNat, 0⟩ else d

/-- A decimal in positional notation: the digits, with as many places after the point as the
power of ten asks for, and at least one digit before it. -/
def digits (d : Decimal) : List Char :=
  let places := (-d.exponent).toNat
  let all := (Nat.toDigits 10 d.positional.mantissa).leftpad (places + 1) '0'
  if places = 0 then all
  else all.take (all.length - places) ++ '.' :: all.drop (all.length - places)

end Decimal

namespace Numeral

open Address (digitsValue)

def exponent? (cs : List Char) : Option Int :=
  match cs with
  | '-' :: digits => (unsigned? digits).map fun n => -(n : Int)
  | '+' :: digits => (unsigned? digits).map fun n => (n : Int)
  | digits => (unsigned? digits).map fun n => (n : Int)
where
  unsigned? (digits : List Char) : Option Nat :=
    if digits.isEmpty || !digits.all Char.isDigit then none else some (digitsValue digits)

def scale? : List Char → Option Int
  | [] => some 0
  | c :: rest => if c = 'e' || c = 'E' then exponent? rest else none

/-- Reads a numeral without a sign, digits only. -/
def decimal? (cs : List Char) : Option Decimal :=
  let whole := cs.takeWhile Char.isDigit
  let rest := cs.dropWhile Char.isDigit
  let (fraction, rest) :=
    match rest with
    | '.' :: rest => (rest.takeWhile Char.isDigit, rest.dropWhile Char.isDigit)
    | rest => ([], rest)
  if whole.isEmpty && fraction.isEmpty then none
  else (scale? rest).map fun e => ⟨digitsValue (whole ++ fraction), e - fraction.length⟩

def magnitude? (cs : List Char) : Option Float :=
  let word := cs.map Char.toLower
  if word = "inf".toList || word = "infinity".toList then some (1.0 / 0.0)
  else if word = "nan".toList then some (0.0 / 0.0)
  else (decimal? cs).map Decimal.toFloat

def float? (cs : List Char) : Option Float :=
  match cs with
  | '-' :: rest => (magnitude? rest).map (- ·)
  | '+' :: rest => magnitude? rest
  | _ => magnitude? cs

end Numeral

structure Ratio where
  num : Nat
  den : Nat
  deriving DecidableEq, Repr

namespace Ratio

/-- The exact magnitude of a finite double, taken from its bits. -/
def ofFloat (x : Float) : Ratio :=
  let bits := x.toBits.toNat
  let fraction := bits % Nat.pow 2 52
  let scale := bits / Nat.pow 2 52 % 2048
  let mantissa := if scale = 0 then fraction else Nat.pow 2 52 + fraction
  let power := max scale 1
  if 1075 ≤ power then ⟨mantissa * Nat.pow 2 (power - 1075), 1⟩
  else ⟨mantissa, Nat.pow 2 (1075 - power)⟩

def topPower (r : Ratio) : Int :=
  (Nat.toDigits 10 (r.num * Nat.pow 10 340 / r.den)).length - 340

/-- The two multiples of `10 ^ power` on either side of a ratio, the better one first. -/
def neighbours (r : Ratio) (power : Int) : List Decimal :=
  let num := r.num * Nat.pow 10 (-power).toNat
  let unit := r.den * Nat.pow 10 power.toNat
  let lower : Decimal := ⟨num / unit, power⟩
  let upper : Decimal := ⟨num / unit + 1, power⟩
  if 2 * (num % unit) < unit then [lower, upper] else [upper, lower]

def exact (r : Ratio) : Decimal :=
  ⟨r.num * Nat.pow 5 r.den.log2, -r.den.log2⟩

end Ratio

namespace Decimal

def shortest (x : Float) : Decimal :=
  let r := Ratio.ofFloat x
  let top := r.topPower
  let found := (List.range 18).findSome? fun (n : Nat) =>
    ((r.neighbours (top - n)).map positional).find? fun d => d.toFloat == x
  found.getD r.exact

end Decimal

namespace Numeral

/-- The text of a double. Zero has no sign. -/
def textOf (x : Float) : String :=
  if x.isNaN then "NaN"
  else if x == 0 then "0"
  else
    let sign := if x < 0 then "-" else ""
    if x.isInf then sign ++ "inf" else sign ++ String.ofList (Decimal.shortest x.abs).digits

end Numeral

inductive Fault where
  | cycle
  | invalidOperand
  | divideByZero
  deriving DecidableEq, Repr

namespace Fault

def marker : Fault → String
  | cycle => "#CYCLE!"
  | invalidOperand => "#INVALID!"
  | divideByZero => "#DIV/0!"

def reason : Fault → String
  | cycle => "circular reference"
  | invalidOperand => "invalid operand"
  | divideByZero => "division by zero"

end Fault

inductive Value where
  | number (n : Float)
  | text (s : String)
  | fault (cause : Fault)

namespace Value

def empty : Value := .text ""

instance : Inhabited Value := ⟨empty⟩

/-- Whether two values are the same to whoever reads them. -/
def same : Value → Value → Bool
  | .number a, .number b => a == b
  | .text a, .text b => a == b
  | .fault a, .fault b => a == b
  | _, _ => false

instance : BEq Value := ⟨same⟩

def isEmpty : Value → Bool
  | .text s => s.isEmpty
  | _ => false

def isNumber : Value → Bool
  | .number _ => true
  | _ => false

def number? : Value → Option Float
  | .number n => some n
  | _ => none

def display : Value → String
  | .number n => Numeral.textOf n
  | .text s => s
  | .fault cause => cause.marker

/-- What is stored for a value given from outside: numbers that are not finite cannot be kept. -/
def storable : Value → Value
  | .number n => if n.isFinite then .number n else .fault .invalidOperand
  | v => v

/-- What typed text stands for: a finite number if it reads as one without the blanks around it,
the empty cell if it is blank, and otherwise the text as it was typed. -/
def ofTyped (text : String) : Value :=
  let trimmed := Text.trim text.toList
  if trimmed.isEmpty then empty
  else
    match Numeral.float? trimmed with
    | some n => if n.isFinite then .number n else .text text
    | none => .text text

end Value

end ReactiveSheet
