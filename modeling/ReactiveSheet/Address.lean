/-!
Text and the addresses of cells.

Whatever is read here (addresses, numbers, formulas, command lines) is read after trimming blanks:
the characters to which Unicode gives the property White_Space. Names of reductions are compared by
their capitals after the full Unicode mapping; as all names are ASCII, only ASCII letters matter and
the few other characters whose capitals are ASCII letters.

An address is a row and a column, both counted from zero, and addresses are ordered row by row. A
set of addresses is the list of its members in strictly ascending order, so that equal sets are
equal lists. In writing, an address is column letters and a row number counted from one, as in `B3`.
The letters are a numeral in base twenty-six with the digits A to Z for one to twenty-six: there is
no digit for zero, so every positive number has exactly one numeral. `Words` reads and writes the
same names with words of thirty-two bits and gives no result where a word has no room for one.
-/

namespace ReactiveSheet

namespace Text

/-- The characters with the Unicode property White_Space. -/
def isBlank (c : Char) : Bool :=
  let code := c.toNat
  (9 ≤ code && code ≤ 13) || code == 0x20 || code == 0x85 || code == 0xA0 || code == 0x1680 ||
    (0x2000 ≤ code && code ≤ 0x200A) || code == 0x2028 || code == 0x2029 || code == 0x202F ||
    code == 0x205F || code == 0x3000

def trimLeft (cs : List Char) : List Char := cs.dropWhile isBlank

def trimRight (cs : List Char) : List Char := (cs.reverse.dropWhile isBlank).reverse

def trim (cs : List Char) : List Char := trimRight (trimLeft cs)

def byteCount : List Char → Nat
  | [] => 0
  | c :: cs => c.utf8Size + byteCount cs

/-- A line, its last character first, without the carriage return that it may end in. -/
def withoutReturn : List Char → List Char
  | '\r' :: line => line
  | line => line

/-- The lines of a text. Each ends with a line break, which may have a carriage return in front, and
the last one may also end with the text. -/
def lines (s : String) : List (List Char) :=
  go [] s.toList
where
  go (line : List Char) : List Char → List (List Char)
    | [] => if line.isEmpty then [] else [line.reverse]
    | c :: cs => if c = '\n' then (withoutReturn line).reverse :: go [] cs else go (c :: line) cs

/-- The characters outside ASCII whose capitals are ASCII letters: dotless i, long s, sharp s and
the ligatures of f and of st. -/
def asciiCapitals : List (Char × List Char) :=
  [('\u0131', ['I']), ('\u017F', ['S']), ('\u00DF', ['S', 'S']),
   ('\uFB00', ['F', 'F']), ('\uFB01', ['F', 'I']), ('\uFB02', ['F', 'L']),
   ('\uFB03', ['F', 'F', 'I']), ('\uFB04', ['F', 'F', 'L']),
   ('\uFB05', ['S', 'T']), ('\uFB06', ['S', 'T'])]

/-- The capitals of one character, as far as they are ASCII; any other character is kept. -/
def capitalsOf (c : Char) : List Char :=
  (asciiCapitals.lookup c).getD [c.toUpper]

def capitals (cs : List Char) : List Char := cs.flatMap capitalsOf

def lowered (cs : List Char) : List Char := cs.map Char.toLower

end Text

def maxRows : Nat := 10000

def maxCols : Nat := 702

structure Address where
  row : Nat
  col : Nat
  deriving DecidableEq, Hashable, Repr

namespace Address

instance : LT Address := ⟨fun a b => a.row < b.row ∨ (a.row = b.row ∧ a.col < b.col)⟩
instance : LE Address := ⟨fun a b => a.row < b.row ∨ (a.row = b.row ∧ a.col ≤ b.col)⟩

theorem lt_iff {a b : Address} :
    a < b ↔ a.row < b.row ∨ (a.row = b.row ∧ a.col < b.col) := Iff.rfl

theorem le_iff {a b : Address} :
    a ≤ b ↔ a.row < b.row ∨ (a.row = b.row ∧ a.col ≤ b.col) := Iff.rfl

instance (a b : Address) : Decidable (a < b) := decidable_of_iff _ lt_iff.symm
instance (a b : Address) : Decidable (a ≤ b) := decidable_of_iff _ le_iff.symm

theorem ext_iff' {a b : Address} : a = b ↔ a.row = b.row ∧ a.col = b.col := by
  cases a; cases b; simp

theorem lt_irrefl (a : Address) : ¬ a < a := by
  rw [lt_iff]; omega

theorem lt_trans {a b c : Address} (h : a < b) (k : b < c) : a < c := by
  rw [lt_iff] at *; omega

theorem lt_or_eq_or_gt (a b : Address) : a < b ∨ a = b ∨ b < a := by
  simp only [lt_iff, ext_iff']; omega

def insert (a : Address) : List Address → List Address
  | [] => [a]
  | b :: rest => if a < b then a :: b :: rest else if a = b then b :: rest else b :: insert a rest

/-- The set of the addresses in a list. -/
def setOf (addrs : List Address) : List Address := addrs.foldr insert []

@[simp] theorem mem_insert {a x : Address} {set : List Address} :
    x ∈ insert a set ↔ x = a ∨ x ∈ set := by
  induction set with
  | nil => simp [insert]
  | cons b rest ih =>
    unfold insert
    split
    · simp
    · split
      · simp_all
      · simp only [List.mem_cons, ih]
        exact or_left_comm

theorem pairwise_insert {a : Address} {set : List Address} (h : set.Pairwise (· < ·)) :
    (insert a set).Pairwise (· < ·) := by
  induction set with
  | nil => simp [insert]
  | cons b rest ih =>
    obtain ⟨first, others⟩ := List.pairwise_cons.mp h
    unfold insert
    split
    · rename_i before
      refine List.pairwise_cons.mpr ⟨fun x hx => ?_, h⟩
      rcases List.mem_cons.mp hx with rfl | hx
      · exact before
      · exact lt_trans before (first x hx)
    · split
      · exact h
      · rename_i notBefore different
        refine List.pairwise_cons.mpr ⟨fun x hx => ?_, ih others⟩
        rcases mem_insert.mp hx with rfl | hx
        · rcases lt_or_eq_or_gt b x with k | k | k
          · exact k
          · exact absurd k.symm different
          · exact absurd k notBefore
        · exact first x hx

@[simp] theorem mem_setOf {x : Address} {addrs : List Address} :
    x ∈ setOf addrs ↔ x ∈ addrs := by
  induction addrs with
  | nil => simp [setOf]
  | cons a rest ih => simpa [setOf] using or_congr_right ih

theorem pairwise_setOf (addrs : List Address) : (setOf addrs).Pairwise (· < ·) := by
  induction addrs with
  | nil => exact List.Pairwise.nil
  | cons a rest ih => exact pairwise_insert ih

theorem ne_of_lt {a b : Address} (h : a < b) : a ≠ b := fun same => lt_irrefl b (same ▸ h)

theorem nodup_of_ascending {set : List Address} (h : set.Pairwise (· < ·)) : set.Nodup :=
  List.Pairwise.imp ne_of_lt h

theorem eq_of_mem_iff {set set' : List Address} (h : set.Pairwise (· < ·))
    (h' : set'.Pairwise (· < ·)) (same : ∀ x, x ∈ set ↔ x ∈ set') : set = set' := by
  have antisymm (a b : Address) (k : a < b) (l : b < a) : a = b :=
    absurd (lt_trans k l) (lt_irrefl a)
  refine List.Perm.eq_of_pairwise (fun a b _ _ => antisymm a b) h h' ?_
  exact (List.perm_ext_iff_of_nodup (nodup_of_ascending h) (nodup_of_ascending h')).mpr same

end Address

namespace Column

def digit (n : Nat) : Char := Char.ofNat ('A'.toNat + n)

def numeral (n : Nat) : List Char :=
  if n = 0 then [] else numeral ((n - 1) / 26) ++ [digit ((n - 1) % 26)]
termination_by n
decreasing_by omega

def letters (col : Nat) : String := String.ofList (numeral (col + 1))

def digitValue? (c : Char) : Option Nat :=
  if c.isAlpha then some (c.toUpper.toNat - 'A'.toNat + 1) else none

inductive Error where
  | empty
  | notALetter (c : Char)
  | beyondLast (letters : String)
  deriving DecidableEq, Repr

def Error.message : Error → String
  | .empty => "empty column letters"
  | .notALetter c => s!"invalid column letter '{c}'"
  | .beyondLast text => s!"column '{text}' is beyond {letters (maxCols - 1)}"

/-- Reads on in a numeral whose digits so far are worth `n`. It stops at the first digit that
takes the number past the last column, whatever comes after. -/
def accumulate (whole : List Char) (n : Nat) : List Char → Except Error Nat
  | [] => .ok n
  | c :: rest =>
    match digitValue? c with
    | none => .error (.notALetter c)
    | some value =>
      let next := n * 26 + value
      if maxCols < next then .error (.beyondLast (String.ofList whole))
      else accumulate whole next rest

def ofLetters (text : List Char) : Except Error Nat :=
  if text.isEmpty then .error .empty
  else (accumulate text 0 text).map (· - 1)

end Column

namespace Address

def label (a : Address) : String := Column.letters a.col ++ toString (a.row + 1)

def labels (addrs : List Address) : String := ", ".intercalate (addrs.map label)

inductive Error where
  | empty
  | noLetters (text : String)
  | column (cause : Column.Error)
  | noRow (text : String)
  | badRow (text : String)
  | rowZero (text : String)
  deriving DecidableEq, Repr

def Error.message : Error → String
  | .empty => "empty address"
  | .noLetters text => s!"no column letters in '{text}'"
  | .column cause => cause.message
  | .noRow text => s!"no row number in '{text}'"
  | .badRow text => s!"invalid row number in '{text}'"
  | .rowZero text => s!"row number must be >= 1 in '{text}'"

end Address

/-- Why a place cannot be used: its name cannot be read, it lies outside, or two places are no
corners of a rectangle. -/
inductive PlaceError where
  | unreadable (cause : Address.Error)
  | rowOutside (row last : Nat)
  | columnOutside (col last : Nat)
  | notCorners (first second : Address)
  deriving DecidableEq, Repr

def PlaceError.message : PlaceError → String
  | .unreadable cause => s!"Invalid cell address: {cause.message}"
  | .rowOutside row last => s!"Row index {row} out of bounds (max: {last})"
  | .columnOutside col last => s!"Column index {col} out of bounds (max: {last})"
  | .notCorners first second =>
    s!"Invalid cell range: {first.label} is not the top-left corner of {second.label}"

namespace Address

def digitsValue (digits : List Char) : Nat :=
  digits.foldl (fun n c => 10 * n + (c.toNat - '0'.toNat)) 0

/-- Row numbers are read as numbers of thirty-two bits; longer ones are not row numbers. -/
def rowLimit : Nat := Nat.pow 2 32

def rowOfDigits (text : String) (digits : List Char) : Except PlaceError Nat :=
  if digits.isEmpty then .error (.unreadable (.noRow text))
  else if !digits.all Char.isDigit then .error (.unreadable (.badRow text))
  else
    let number := digitsValue digits
    if rowLimit ≤ number then .error (.unreadable (.badRow text))
    else if number = 0 then .error (.unreadable (.rowZero text))
    else if maxRows < number then .error (.rowOutside (number - 1) (maxRows - 1))
    else .ok (number - 1)

/-- Reads an address. The column is judged before the row. -/
def ofChars (cs : List Char) : Except PlaceError Address :=
  let cs := Text.trim cs
  let text := String.ofList cs
  let letters := cs.takeWhile Char.isAlpha
  if cs.isEmpty then .error (.unreadable .empty)
  else if letters.isEmpty then .error (.unreadable (.noLetters text))
  else
    match Column.ofLetters letters with
    | .error cause => .error (.unreadable (.column cause))
    | .ok col => (rowOfDigits text (cs.dropWhile Char.isAlpha)).map (⟨·, col⟩)

def ofText (text : String) : Except PlaceError Address := ofChars text.toList

end Address

namespace Words

def add? (x y : UInt32) : Option UInt32 :=
  if x.toNat + y.toNat < UInt32.size then some (x + y) else none

def mul? (x y : UInt32) : Option UInt32 :=
  if x.toNat * y.toNat < UInt32.size then some (x * y) else none

def sub? (x y : UInt32) : Option UInt32 := if y ≤ x then some (x - y) else none

theorem toNat_sub? {x y z : UInt32} (h : sub? x y = some z) : z.toNat + y.toNat = x.toNat := by
  unfold sub? at h
  split at h
  · rename_i le
    obtain rfl := Option.some.inj h
    rw [UInt32.toNat_sub_of_le _ _ le]
    exact Nat.sub_add_cancel (UInt32.le_iff_toNat_le.mp le)
  · cases h

/-- A word cut to half its length, if only zeros are cut off. -/
def half? (x : UInt32) : Option UInt16 :=
  if x.toNat < UInt16.size then some x.toUInt16 else none

def letterValue? (c : Char) : Option UInt32 := do add? (← sub? c.toUpper.val 'A'.val) 1

def nextLetter? (n : UInt32) (c : Char) : Option UInt32 := do
  add? (← mul? n 26) (← letterValue? c)

def accumulate? (whole : List Char) (n : UInt32) : List Char → Option (Except Column.Error UInt32)
  | [] => some (.ok n)
  | c :: rest =>
    if c.isAlpha then do
      let next ← nextLetter? n c
      if UInt32.ofNat maxCols < next then some (.error (.beyondLast (String.ofList whole)))
      else accumulate? whole next rest
    else some (.error (.notALetter c))

def ofLetters? (text : List Char) : Option (Except Column.Error UInt16) :=
  if text.isEmpty then some (.error .empty)
  else do
    match ← accumulate? text 0 text with
    | .error cause => some (.error cause)
    | .ok n => (half? (← sub? n 1)).map .ok

def nextDigit? (n : UInt32) (c : Char) : Option UInt32 := do
  add? (← mul? n 10) (← sub? c.val '0'.val)

/-- Reads on in a number, as long as words have room for it. -/
def number? (n : UInt32) : List Char → Option UInt32
  | [] => some n
  | c :: rest => do number? (← nextDigit? n c) rest

def rowOfDigits? (text : String) (digits : List Char) : Option (Except PlaceError UInt32) :=
  if digits.isEmpty then some (.error (.unreadable (.noRow text)))
  else if !digits.all Char.isDigit then some (.error (.unreadable (.badRow text)))
  else
    match number? 0 digits with
    | none => some (.error (.unreadable (.badRow text)))
    | some number =>
      if number = 0 then some (.error (.unreadable (.rowZero text)))
      else do
        let row ← sub? number 1
        if UInt32.ofNat maxRows ≤ row then some (.error (.rowOutside row.toNat (maxRows - 1)))
        else some (.ok row)

def ofChars? (cs : List Char) : Option (Except PlaceError Address) :=
  let cs := Text.trim cs
  let text := String.ofList cs
  let letters := cs.takeWhile Char.isAlpha
  if cs.isEmpty then some (.error (.unreadable .empty))
  else if letters.isEmpty then some (.error (.unreadable (.noLetters text)))
  else do
    match ← ofLetters? letters with
    | .error cause => some (.error (.unreadable (.column cause)))
    | .ok col =>
      let row ← rowOfDigits? text (cs.dropWhile Char.isAlpha)
      some (row.map fun row => ⟨row.toNat, col.toNat⟩)

def ofText? (text : String) : Option (Except PlaceError Address) := ofChars? text.toList

def letter? (n : UInt32) : Option Char :=
  if n.toUInt8.toNat + 'A'.toNat < UInt8.size then some (Char.ofUInt8 (n.toUInt8 + 'A'.toUInt8))
  else none

def numeral? (n : UInt32) (written : List Char) : Option (List Char) :=
  if n = 0 then some written
  else
    match h : sub? n 1 with
    | none => none
    | some m => (letter? (m % 26)).bind fun c => numeral? (m / 26) (c :: written)
termination_by n.toNat
decreasing_by
  have less : m.toNat + 1 = n.toNat := toNat_sub? h
  rw [UInt32.toNat_div]
  exact Nat.lt_of_le_of_lt (Nat.div_le_self _ _) (by omega)

def letters? (col : UInt16) : Option String := do
  return String.ofList (← numeral? (← add? col.toUInt32 1) [])

end Words

end ReactiveSheet
