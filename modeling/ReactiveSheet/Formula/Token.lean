import ReactiveSheet.Formula.Printer

/-!
The tokens of formula text.

A token takes the longest piece of text that it can. Blanks between tokens mean nothing, with one
exception that looks past them: letters and digits that name a cell are a name instead if an
opening parenthesis follows. `Tokens.ofText` is the tokens of a text up to its end or to the first
place where no token can be made.
-/

namespace ReactiveSheet

inductive Punctuation where
  | colon
  | comma
  | opening
  | closing
  deriving DecidableEq, Repr

namespace Punctuation

def symbol : Punctuation → Char
  | colon => ':'
  | comma => ','
  | opening => '('
  | closing => ')'

def ofSymbol? : Char → Option Punctuation
  | ':' => some colon
  | ',' => some comma
  | '(' => some opening
  | ')' => some closing
  | _ => none

end Punctuation

inductive Token where
  | number (n : Float)
  | text (s : String)
  /-- The name of a function, known or not. -/
  | name (s : String)
  /-- Letters and digits that name a cell, wherever it may lie. -/
  | cell (s : String)
  | operator (op : Operator)
  | comparator (cmp : Comparator)
  | punctuation (p : Punctuation)

def Token.describe : Token → String
  | .number n => "number " ++ Numeral.textOf n
  | .text s => "string \"" ++ s ++ "\""
  | .name s => "'" ++ s ++ "'"
  | .cell s => "reference " ++ s
  | .operator op => "'" ++ op.symbol.toString ++ "'"
  | .comparator cmp => "'" ++ cmp.symbol ++ "'"
  | .punctuation p => "'" ++ p.symbol.toString ++ "'"

/-- Why no token can be made at a place. Positions count bytes from the start of the formula. -/
inductive ScanError where
  | unexpectedCharacter (c : Char) (position : Nat)
  | unterminatedText (position : Nat)
  | badNumber (text : String)
  deriving DecidableEq, Repr

def ScanError.message : ScanError → String
  | .unexpectedCharacter c position => s!"Unexpected character '{c}' at position {position}"
  | .unterminatedText position => s!"Unterminated string starting at position {position}"
  | .badNumber text => s!"Invalid number '{text}'"

/-- A token that takes one character and as much of `tail` as comes before `rest`. -/
structure Lexeme (tail : List Char) where
  token : Token
  rest : List Char
  suffix : rest <:+ tail

namespace Lexeme

def afterDigits (cs : List Char) : List Char := cs.dropWhile Char.isDigit

def afterFraction : List Char → List Char
  | [] => []
  | c :: rest => if c = '.' then afterDigits rest else c :: rest

def afterSign : List Char → List Char
  | [] => []
  | c :: rest => if c = '+' || c = '-' then rest else c :: rest

def afterExponent : List Char → List Char
  | [] => []
  | c :: rest => if c = 'e' || c = 'E' then afterDigits (afterSign rest) else c :: rest

def afterNumber (c : Char) (tail : List Char) : List Char :=
  afterExponent (if c = '.' then afterDigits tail else afterFraction (afterDigits tail))

theorem afterDigits_suffix (cs : List Char) : afterDigits cs <:+ cs := List.dropWhile_suffix _

theorem afterFraction_suffix (cs : List Char) : afterFraction cs <:+ cs := by
  cases cs with
  | nil => exact List.suffix_refl _
  | cons c rest =>
    rw [afterFraction]
    split
    · exact (afterDigits_suffix rest).trans (List.suffix_cons c rest)
    · exact List.suffix_refl _

theorem afterSign_suffix (cs : List Char) : afterSign cs <:+ cs := by
  cases cs with
  | nil => exact List.suffix_refl _
  | cons c rest =>
    rw [afterSign]
    split
    · exact List.suffix_cons c rest
    · exact List.suffix_refl _

theorem afterExponent_suffix (cs : List Char) : afterExponent cs <:+ cs := by
  cases cs with
  | nil => exact List.suffix_refl _
  | cons c rest =>
    rw [afterExponent]
    split
    · exact ((afterDigits_suffix _).trans (afterSign_suffix rest)).trans (List.suffix_cons c rest)
    · exact List.suffix_refl _

theorem afterNumber_suffix (c : Char) (tail : List Char) : afterNumber c tail <:+ tail := by
  unfold afterNumber
  split
  · exact (afterExponent_suffix _).trans (afterDigits_suffix tail)
  · exact ((afterExponent_suffix _).trans (afterFraction_suffix _)).trans (afterDigits_suffix tail)

def before (cs rest : List Char) : List Char := cs.take (cs.length - rest.length)

/-- A number, which must be finite. -/
def number (c : Char) (tail : List Char) : Except ScanError (Lexeme tail) :=
  let rest := afterNumber c tail
  let written := before (c :: tail) rest
  match Numeral.float? written with
  | some n =>
    if n.isFinite then .ok ⟨.number n, rest, afterNumber_suffix c tail⟩
    else .error (.badNumber (String.ofList written))
  | none => .error (.badNumber (String.ofList written))

def quoted? : List Char → Option (List Char × List Char)
  | [] => none
  | '"' :: '"' :: rest => (quoted? rest).map fun (content, rest) => ('"' :: content, rest)
  | c :: rest =>
    if c = '"' then some ([], rest)
    else (quoted? rest).map fun (content, rest) => (c :: content, rest)

theorem suffix_of_quoted? {cs content rest : List Char} (h : quoted? cs = some (content, rest)) :
    rest <:+ cs := by
  fun_induction quoted? cs generalizing content with
  | case1 => simp at h
  | case2 cs ih =>
    obtain ⟨⟨s, r⟩, hs, he⟩ := Option.map_eq_some_iff.mp h
    obtain ⟨-, rfl⟩ := Prod.mk.inj he
    exact ((ih hs).trans (List.suffix_cons _ _)).trans (List.suffix_cons _ _)
  | case3 c cs =>
    obtain ⟨-, rfl⟩ := Prod.mk.inj (Option.some.inj h)
    exact List.suffix_cons _ _
  | case4 c cs _ _ ih =>
    obtain ⟨⟨s, r⟩, hs, he⟩ := Option.map_eq_some_iff.mp h
    obtain ⟨-, rfl⟩ := Prod.mk.inj he
    exact (ih hs).trans (List.suffix_cons _ _)

/-- Where the last part of a text starts, if the whole text takes `total` bytes. -/
def position (total : Nat) (cs : List Char) : Nat := total - Text.byteCount cs

def text (total : Nat) (tail : List Char) : Except ScanError (Lexeme tail) :=
  match h : quoted? tail with
  | some (content, rest) => .ok ⟨.text (String.ofList content), rest, suffix_of_quoted? h⟩
  | none => .error (.unterminatedText (position total ('"' :: tail)))

def isNameStart (c : Char) : Bool := c.isAlpha || c = '_'

def isNamePart (c : Char) : Bool := c.isAlphanum || c = '_'

/-- Letters followed by digits, at least one of each. -/
def namesCell (cs : List Char) : Bool :=
  let digits := cs.dropWhile Char.isAlpha
  digits.length < cs.length && !digits.isEmpty && digits.all Char.isDigit

def firstVisible (cs : List Char) : Option Char := (Text.trimLeft cs).head?

def name (c : Char) (tail : List Char) : Lexeme tail :=
  let rest := tail.dropWhile isNamePart
  let written := c :: tail.takeWhile isNamePart
  let s := String.ofList written
  let token :=
    if namesCell written && firstVisible rest != some '(' then Token.cell s else Token.name s
  ⟨token, rest, List.dropWhile_suffix _⟩

def startsComparator (c : Char) : Bool := c = '<' || c = '>' || c = '=' || c = '!'

def shortComparator (total : Nat) (c : Char) (tail : List Char) :
    Except ScanError (Lexeme tail) :=
  match Comparator.ofSymbol? (String.ofList [c]) with
  | some cmp => .ok ⟨.comparator cmp, tail, List.suffix_refl _⟩
  | none => .error (.unexpectedCharacter c (position total (c :: tail)))

def comparator (total : Nat) (c : Char) (tail : List Char) : Except ScanError (Lexeme tail) :=
  match tail with
  | d :: rest =>
    if d = '=' || d = '>' then
      match Comparator.ofSymbol? (String.ofList [c, d]) with
      | some cmp => .ok ⟨.comparator cmp, rest, List.suffix_cons _ _⟩
      | none => shortComparator total c (d :: rest)
    else shortComparator total c (d :: rest)
  | [] => shortComparator total c []

/-- Whether a number starts with this character. A point starts one only before a digit. -/
def startsNumber (c : Char) (tail : List Char) : Bool :=
  c.isDigit || (c = '.' && (tail.head?.map Char.isDigit).getD false)

def scan (total : Nat) (c : Char) (tail : List Char) : Except ScanError (Lexeme tail) :=
  match Punctuation.ofSymbol? c with
  | some p => .ok ⟨.punctuation p, tail, List.suffix_refl _⟩
  | none =>
    match Operator.ofSymbol? c with
    | some op => .ok ⟨.operator op, tail, List.suffix_refl _⟩
    | none =>
      if startsComparator c then comparator total c tail
      else if c = '"' then text total tail
      else if startsNumber c tail then number c tail
      else if isNameStart c then .ok (name c tail)
      else .error (.unexpectedCharacter c (position total (c :: tail)))

end Lexeme

/-- The tokens of a text, which end with the text or where no further one can be made. -/
inductive Tokens where
  | done
  | broken (cause : ScanError)
  | next (t : Token) (rest : Tokens)

namespace Tokens

def length : Tokens → Nat
  | done => 0
  | broken _ => 0
  | next _ rest => rest.length + 1

def front : Tokens → Option Token
  | next t _ => some t
  | _ => none

def scan (total : Nat) (cs : List Char) : Tokens :=
  match _visible : Text.trimLeft cs with
  | [] => .done
  | c :: tail =>
    match Lexeme.scan total c tail with
    | .error cause => .broken cause
    | .ok lexeme => .next lexeme.token (scan total lexeme.rest)
termination_by cs.length
decreasing_by
  have kept : (c :: tail).length ≤ cs.length := _visible ▸ (List.dropWhile_suffix _).length_le
  have used := lexeme.suffix.length_le
  simp only [List.length_cons] at kept
  omega

def ofText (cs : List Char) : Tokens := scan (Text.byteCount cs) cs

end Tokens

end ReactiveSheet
