import ReactiveSheet.Formula.Token

/-!
Tokens found by a cursor that moves through the text.

The cursor is a number of bytes from the start of the text, and it is moved on by the bytes of the
characters that it passes. The text can be looked at, and cut, only where a character begins or the
text ends. Anywhere else, as in the middle of a character, there is no result at all.
-/

namespace ReactiveSheet.Cursor

/-- A text in two parts, the first of which takes `n` bytes. -/
def cut? : List Char → Nat → Option (List Char × List Char)
  | cs, 0 => some ([], cs)
  | [], _ + 1 => none
  | c :: cs, n + 1 =>
    if c.utf8Size ≤ n + 1 then
      (cut? cs (n + 1 - c.utf8Size)).map fun (front, back) => (c :: front, back)
    else none

def from? (text : List Char) (pos : Nat) : Option (List Char) := (cut? text pos).map Prod.snd

def slice? (text : List Char) (start stop : Nat) : Option (List Char) := do
  if start ≤ stop then return (← cut? (← from? text start) (stop - start)).1 else none

def peek? (text : List Char) (pos : Nat) : Option (Option Char) := (from? text pos).map List.head?

theorem byteCount_of_cut? {text front back : List Char} {pos : Nat}
    (h : cut? text pos = some (front, back)) : pos + Text.byteCount back = Text.byteCount text := by
  induction text generalizing pos front with
  | nil =>
    cases pos with
    | zero =>
      cases h
      rfl
    | succ n => cases h
  | cons c text ih =>
    cases pos with
    | zero =>
      cases h
      exact Nat.zero_add _
    | succ n =>
      rw [cut?] at h
      split at h
      · rename_i room
        obtain ⟨⟨front, back⟩, rest, same⟩ := Option.map_eq_some_iff.mp h
        cases same
        have := ih rest
        rw [Text.byteCount]
        omega
      · cases h

theorem room_of_peek? {text : List Char} {pos : Nat} {c : Char}
    (h : peek? text pos = some (some c)) : pos + c.utf8Size ≤ Text.byteCount text := by
  obtain ⟨cs, rest, first⟩ := Option.map_eq_some_iff.mp h
  obtain ⟨⟨front, back⟩, parts, rfl⟩ := Option.map_eq_some_iff.mp rest
  have whole := byteCount_of_cut? parts
  obtain ⟨tail, rfl⟩ := List.head?_eq_some_iff.mp first
  rw [Text.byteCount] at whole
  omega

def skip? (text : List Char) (p : Char → Bool) (pos : Nat) : Option Nat :=
  match _here : peek? text pos with
  | none => none
  | some none => some pos
  | some (some c) => if p c then skip? text p (pos + c.utf8Size) else some pos
termination_by Text.byteCount text - pos
decreasing_by
  have room := room_of_peek? _here
  have positive := c.utf8Size_pos
  omega

def skipOne? (text : List Char) (p : Char → Bool) (pos : Nat) : Option (Option Nat) := do
  match ← peek? text pos with
  | some c => return if p c then some (pos + c.utf8Size) else none
  | none => return none

def skipFraction? (text : List Char) (pos : Nat) : Option Nat := do
  match ← skipOne? text (· = '.') pos with
  | some next => skip? text Char.isDigit next
  | none => return pos

def skipExponent? (text : List Char) (pos : Nat) : Option Nat := do
  match ← skipOne? text (fun c => c = 'e' || c = 'E') pos with
  | some next =>
    let signed ← skipOne? text (fun c => c = '+' || c = '-') next
    skip? text Char.isDigit (signed.getD next)
  | none => return pos

abbrev Found := Except ScanError (Token × Nat)

def number? (text : List Char) (start : Nat) : Option Found := do
  let pos ← skip? text Char.isDigit start
  let pos ← skipFraction? text pos
  let pos ← skipExponent? text pos
  let written ← slice? text start pos
  match Numeral.float? written with
  | some n =>
    if n.isFinite then return .ok (.number n, pos)
    else return .error (.badNumber (String.ofList written))
  | none => return .error (.badNumber (String.ofList written))

/-- Goes on with a quoted text, of which some has been read. -/
def quoted? (text : List Char) (start : Nat) (content : List Char) (pos : Nat) : Option Found :=
  match _here : peek? text pos with
  | none => none
  | some none => some (.error (.unterminatedText start))
  | some (some c) =>
    let next := pos + c.utf8Size
    if c = '"' then
      match _second : peek? text next with
      | none => none
      | some none => some (.ok (.text (String.ofList content), next))
      | some (some d) =>
        if d = '"' then quoted? text start (content ++ ['"']) (next + d.utf8Size)
        else some (.ok (.text (String.ofList content), next))
    else quoted? text start (content ++ [c]) next
termination_by Text.byteCount text - pos
decreasing_by
  · have room := room_of_peek? _here
    have positive := c.utf8Size_pos
    omega
  · have room := room_of_peek? _here
    have positive := c.utf8Size_pos
    omega

def name? (text : List Char) (start : Nat) : Option Found := do
  let pos ← skip? text Lexeme.isNamePart start
  let written ← slice? text start pos
  let rest ← from? text pos
  if Lexeme.namesCell written && Lexeme.firstVisible rest != some '(' then
    return .ok (.cell (String.ofList written), pos)
  else return .ok (.name (String.ofList written), pos)

def written? (text : List Char) (start pos : Nat) : Option (Option Comparator) :=
  (slice? text start pos).map fun written => Comparator.ofSymbol? (String.ofList written)

def shortComparator? (text : List Char) (c : Char) (start pos : Nat) : Option Found := do
  match ← written? text start pos with
  | some cmp => return .ok (.comparator cmp, pos)
  | none => return .error (.unexpectedCharacter c start)

/-- A comparison that starts with `c`. If two characters are none, the cursor goes back to the place
one byte behind the first of them. -/
def comparator? (text : List Char) (c : Char) (start : Nat) : Option Found := do
  let pos := start + c.utf8Size
  match ← skipOne? text (fun d => d = '=' || d = '>') pos with
  | some next =>
    match ← written? text start next with
    | some cmp => return .ok (.comparator cmp, next)
    | none => shortComparator? text c start (start + 1)
  | none => shortComparator? text c start pos

/-- The token that starts with `c`, which is here and not blank, and has `tail` behind it. -/
def visible? (text : List Char) (c : Char) (tail : List Char) (pos : Nat) : Option Found :=
  match Punctuation.ofSymbol? c with
  | some p => some (.ok (.punctuation p, pos + c.utf8Size))
  | none =>
    match Operator.ofSymbol? c with
    | some op => some (.ok (.operator op, pos + c.utf8Size))
    | none =>
      if Lexeme.startsComparator c then comparator? text c pos
      else if c = '"' then quoted? text pos [] (pos + c.utf8Size)
      else if Lexeme.startsNumber c tail then number? text pos
      else if Lexeme.isNameStart c then name? text pos
      else some (.error (.unexpectedCharacter c pos))

/-- The next token from a place on, unless only blanks are left, and the place where the cursor is
then. -/
def token? (text : List Char) (pos : Nat) : Option (Except ScanError (Option Token × Nat)) := do
  let start ← skip? text Text.isBlank pos
  match ← from? text start with
  | [] => return .ok (none, start)
  | c :: tail => return (← visible? text c tail start).map fun (t, next) => (some t, next)

end ReactiveSheet.Cursor
