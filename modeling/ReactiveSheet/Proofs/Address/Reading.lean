import ReactiveSheet.Proofs.Address.Notation

/-!
Which texts name an address, and that nothing overflows while they are read or written.

A name is letters and then digits. The letters are worth the column and the digits the row, both
counted from one, and both lie within the largest sheet. Every other text is refused.

Reading stops at the first letter that takes a column past the last one and at the first digit that
words have no room for, so the numbers stay small; and from each number that is made smaller by one
it is known that it is not zero. So the arithmetic of words gives what that of numbers gives.
-/

namespace ReactiveSheet

namespace Words

variable {x y n : UInt32} {c : Char} {cs : List Char}

theorem exists_add? (h : x.toNat + y.toNat < UInt32.size) :
    ∃ z, add? x y = some z ∧ z.toNat = x.toNat + y.toNat :=
  ⟨x + y, if_pos h, (UInt32.toNat_add x y).trans (Nat.mod_eq_of_lt h)⟩

theorem exists_mul? (h : x.toNat * y.toNat < UInt32.size) :
    ∃ z, mul? x y = some z ∧ z.toNat = x.toNat * y.toNat :=
  ⟨x * y, if_pos h, (UInt32.toNat_mul x y).trans (Nat.mod_eq_of_lt h)⟩

theorem exists_sub? (h : y.toNat ≤ x.toNat) :
    ∃ z, sub? x y = some z ∧ z.toNat = x.toNat - y.toNat := by
  have le : y ≤ x := UInt32.le_iff_toNat_le.mpr h
  exact ⟨x - y, if_pos le, UInt32.toNat_sub_of_le _ _ le⟩

theorem exists_half? (h : x.toNat < UInt16.size) :
    ∃ z, half? x = some z ∧ z.toNat = x.toNat :=
  ⟨x.toUInt16, if_pos h, (UInt32.toNat_toUInt16 x).trans (Nat.mod_eq_of_lt h)⟩

theorem exists_letterValue? (h : c.isAlpha = true) :
    ∃ v, letterValue? c = some v ∧ v.toNat = Column.rank c ∧ v.toNat ≤ 26 := by
  have letters : (letterValue? c).map UInt32.toNat = some (Column.rank c) ∧ Column.rank c ≤ 26 :=
    Text.of_isAlpha (P := fun c => (letterValue? c).map UInt32.toNat = some (Column.rank c) ∧
      Column.rank c ≤ 26) (by decide) (by decide) h
  obtain ⟨v, found, value⟩ := Option.map_eq_some_iff.mp letters.1
  exact ⟨v, found, value, value ▸ letters.2⟩

theorem exists_digitValue? (h : c.isDigit = true) :
    ∃ v, sub? c.val '0'.val = some v ∧ v.toNat = c.toNat - '0'.toNat ∧ v.toNat ≤ 9 := by
  have digits : '0'.toNat ≤ c.toNat ∧ c.toNat - '0'.toNat ≤ 9 :=
    Text.of_isDigit (P := fun c => '0'.toNat ≤ c.toNat ∧ c.toNat - '0'.toNat ≤ 9) (by decide) h
  obtain ⟨v, found, value⟩ := exists_sub? (x := c.val) (y := '0'.val) digits.1
  exact ⟨v, found, value, value ▸ digits.2⟩

theorem exists_nextLetter? (h : n.toNat ≤ maxCols) (letter : c.isAlpha = true) :
    ∃ next, nextLetter? n c = some next ∧ next.toNat = n.toNat * 26 + Column.rank c := by
  have columns : maxCols = 702 := rfl
  have size : UInt32.size = 4294967296 := rfl
  have base : (26 : UInt32).toNat = 26 := rfl
  obtain ⟨v, found, rank, small⟩ := exists_letterValue? letter
  obtain ⟨p, product, value⟩ := exists_mul? (x := n) (y := 26) (by rw [base]; omega)
  rw [base] at value
  obtain ⟨next, sum, total⟩ := exists_add? (x := p) (y := v) (by omega)
  refine ⟨next, ?_, by rw [total, value, rank]⟩
  rw [nextLetter?, product, found]
  exact sum

theorem accumulate?_eq (whole cs : List Char) (h : n.toNat ≤ maxCols) :
    ∃ r, accumulate? whole n cs = some r ∧
      r.map UInt32.toNat = Column.accumulate whole n.toNat cs := by
  induction cs generalizing n with
  | nil => exact ⟨.ok n, rfl, rfl⟩
  | cons c cs ih =>
    rw [accumulate?, Column.accumulate]
    by_cases letter : c.isAlpha = true
    · obtain ⟨next, found, value⟩ := exists_nextLetter? h letter
      have beyond : UInt32.ofNat maxCols < next ↔ maxCols < n.toNat * 26 + Column.rank c := by
        rw [UInt32.lt_iff_toNat_lt, value]
        exact Iff.rfl
      rw [if_pos letter, Column.digitValue?_letter letter, found]
      dsimp only [Option.bind_eq_bind, Option.bind_some]
      by_cases last : maxCols < n.toNat * 26 + Column.rank c
      · rw [if_pos (beyond.mpr last), if_pos last]
        exact ⟨_, rfl, rfl⟩
      · rw [if_neg fun above => last (beyond.mp above), if_neg last, ← value]
        exact ih (by omega)
    · have none : Column.digitValue? c = none := if_neg letter
      rw [if_neg letter, none]
      exact ⟨_, rfl, rfl⟩

theorem ofLetters?_eq (letters : ∀ c ∈ cs, c.isAlpha = true) :
    ∃ r, ofLetters? cs = some r ∧ r.map UInt16.toNat = Column.ofLetters cs := by
  cases cs with
  | nil => exact ⟨_, rfl, rfl⟩
  | cons c cs =>
    obtain ⟨r, found, value⟩ := accumulate?_eq (n := 0) (c :: cs) (c :: cs) (Nat.zero_le _)
    have value : r.map UInt32.toNat = Column.accumulate (c :: cs) 0 (c :: cs) := value
    have some : (c :: cs).isEmpty = false := rfl
    rw [ofLetters?, Column.ofLetters, some, found, ← value]
    cases r with
    | error cause => exact ⟨_, rfl, rfl⟩
    | ok n =>
      have columns : maxCols < UInt16.size := by decide
      have one : (1 : UInt32).toNat = 1 := rfl
      have bounds : 0 < n.toNat ∧ n.toNat ≤ maxCols := by
        have positive := Column.number_cons_pos c cs
        rw [Column.accumulate_letters _ letters (Nat.zero_le _), Nat.zero_mul,
          Nat.zero_add] at value
        split at value
        · rename_i inside
          exact Except.ok.inj value ▸ ⟨positive, inside⟩
        · cases value
      obtain ⟨m, less, value'⟩ := exists_sub? (x := n) (y := 1) (by rw [one]; exact bounds.1)
      rw [one] at value'
      obtain ⟨col, cut, value''⟩ := exists_half? (x := m) (by omega)
      refine ⟨.ok col, ?_, ?_⟩
      · simp [less, cut]
      · simp [Except.map, value', value'']

theorem nextDigit?_eq (digit : c.isDigit = true) :
    (nextDigit? n c).map UInt32.toNat =
      if 10 * n.toNat + (c.toNat - '0'.toNat) < UInt32.size
      then some (10 * n.toNat + (c.toNat - '0'.toNat)) else none := by
  have ten : (10 : UInt32).toNat = 10 := rfl
  obtain ⟨v, found, value, -⟩ := exists_digitValue? digit
  rw [nextDigit?, found, ← value]
  by_cases room : n.toNat * 10 < UInt32.size
  · obtain ⟨p, product, value'⟩ := exists_mul? (x := n) (y := 10) (by rw [ten]; exact room)
    rw [ten, Nat.mul_comm] at value'
    rw [product, ← value']
    by_cases room' : p.toNat + v.toNat < UInt32.size
    · obtain ⟨next, sum, total⟩ := exists_add? room'
      rw [if_pos room', ← total]
      exact congrArg (Option.map UInt32.toNat) sum
    · rw [if_neg room']
      exact congrArg (Option.map UInt32.toNat) (if_neg room')
  · have none : mul? n 10 = none := if_neg (by rw [ten]; exact room)
    rw [none, if_neg (by omega)]
    rfl

theorem le_ofDigitChars (n : Nat) (cs : List Char) : n ≤ Nat.ofDigitChars 10 cs n := by
  induction cs generalizing n with
  | nil => exact Nat.le_refl n
  | cons c cs ih =>
    rw [Nat.ofDigitChars_cons]
    exact Nat.le_trans (by omega) (ih _)

theorem number?_eq (digits : ∀ c ∈ cs, c.isDigit = true) :
    (number? n cs).map UInt32.toNat =
      if Nat.ofDigitChars 10 cs n.toNat < UInt32.size
      then some (Nat.ofDigitChars 10 cs n.toNat) else none := by
  induction cs generalizing n with
  | nil => exact (if_pos n.toNat_lt_size).symm
  | cons c cs ih =>
    obtain ⟨digit, digits⟩ := List.forall_mem_cons.mp digits
    have first := nextDigit?_eq (n := n) digit
    have more := le_ofDigitChars (10 * n.toNat + (c.toNat - '0'.toNat)) cs
    rw [number?, Nat.ofDigitChars_cons]
    by_cases room : 10 * n.toNat + (c.toNat - '0'.toNat) < UInt32.size
    · rw [if_pos room] at first
      obtain ⟨next, found, value⟩ := Option.map_eq_some_iff.mp first
      rw [found, ← value]
      exact ih digits
    · rw [if_neg room, Option.map_eq_none_iff] at first
      rw [first, if_neg (by omega)]
      rfl

theorem rowOfDigits?_eq (text : String) (cs : List Char) :
    ∃ r, rowOfDigits? text cs = some r ∧ r.map UInt32.toNat = Address.rowOfDigits text cs := by
  rw [rowOfDigits?, Address.rowOfDigits]
  by_cases empty : cs.isEmpty = true
  · rw [if_pos empty, if_pos empty]
    exact ⟨_, rfl, rfl⟩
  rw [if_neg empty, if_neg empty]
  by_cases digits : (!cs.all Char.isDigit) = true
  · rw [if_pos digits, if_pos digits]
    exact ⟨_, rfl, rfl⟩
  rw [if_neg digits, if_neg digits]
  have read : (number? 0 cs).map UInt32.toNat = if Address.digitsValue cs < Address.rowLimit
      then some (Address.digitsValue cs) else none := by
    have all : ∀ c ∈ cs, c.isDigit = true := by simpa using digits
    rw [Address.digitsValue_eq]
    exact number?_eq (n := 0) all
  by_cases long : Address.rowLimit ≤ Address.digitsValue cs
  · rw [if_neg (Nat.not_lt.mpr long), Option.map_eq_none_iff] at read
    rw [read, if_pos long]
    exact ⟨_, rfl, rfl⟩
  rw [if_pos (Nat.not_le.mp long)] at read
  obtain ⟨n, found, value⟩ := Option.map_eq_some_iff.mp read
  have one : (1 : UInt32).toNat = 1 := rfl
  have rows : (UInt32.ofNat maxRows).toNat = maxRows := rfl
  have zero : n = 0 ↔ n.toNat = 0 := UInt32.toNat_inj.symm
  rw [found, if_neg long, ← value]
  dsimp only
  by_cases nothing : n = 0
  · rw [if_pos nothing, if_pos (zero.mp nothing)]
    exact ⟨_, rfl, rfl⟩
  have positive : 0 < n.toNat := Nat.pos_of_ne_zero fun h => nothing (zero.mpr h)
  obtain ⟨row, less, value'⟩ := exists_sub? (x := n) (y := 1) (by rw [one]; exact positive)
  rw [one] at value'
  have below : UInt32.ofNat maxRows ≤ row ↔ maxRows < n.toNat := by
    rw [UInt32.le_iff_toNat_le, rows]
    omega
  rw [if_neg nothing, if_neg positive.ne', less, ← value']
  dsimp only [Option.bind_eq_bind, Option.bind_some]
  by_cases last : maxRows < n.toNat
  · rw [if_pos (below.mpr last), if_pos last]
    exact ⟨_, rfl, rfl⟩
  · rw [if_neg fun above => last (below.mp above), if_neg last]
    exact ⟨_, rfl, rfl⟩

theorem ofChars?_eq (cs : List Char) : ofChars? cs = some (Address.ofChars cs) := by
  unfold ofChars? Address.ofChars
  dsimp only
  by_cases empty : (Text.trim cs).isEmpty = true
  · rw [if_pos empty, if_pos empty]
  rw [if_neg empty, if_neg empty]
  by_cases unnamed : ((Text.trim cs).takeWhile Char.isAlpha).isEmpty = true
  · rw [if_pos unnamed, if_pos unnamed]
  rw [if_neg unnamed, if_neg unnamed]
  have letters : ∀ c ∈ (Text.trim cs).takeWhile Char.isAlpha, c.isAlpha = true :=
    fun c hc => List.mem_takeWhile_imp hc
  obtain ⟨col, found, value⟩ := ofLetters?_eq letters
  rw [found, ← value]
  cases col with
  | error cause => rfl
  | ok col =>
    obtain ⟨row, found', value'⟩ := rowOfDigits?_eq (String.ofList (Text.trim cs))
      ((Text.trim cs).dropWhile Char.isAlpha)
    dsimp only [Except.map, Option.bind_eq_bind, Option.bind_some]
    rw [found', ← value']
    cases row with
    | error cause => rfl
    | ok row => rfl

/-- Names are read without any overflow, and as they are read with numbers. -/
theorem ofText?_eq (text : String) : ofText? text = some (Address.ofText text) :=
  ofChars?_eq text.toList

theorem letter?_eq (h : n.toNat < 26) : letter? n = some (Column.digit n.toNat) := by
  have letters : ∀ d : Fin 26, letter? (UInt32.ofNat d) = some (Column.digit d) := by decide
  have same := letters ⟨n.toNat, h⟩
  rwa [UInt32.ofNat_toNat] at same

theorem numeral?_eq (n : UInt32) (written : List Char) :
    numeral? n written = some (Column.numeral n.toNat ++ written) := by
  fun_induction numeral? n written with
  | case1 written => rw [UInt32.toNat_zero, Column.numeral, if_pos rfl, List.nil_append]
  | case2 n written some none =>
    have positive : 0 < n.toNat := Nat.pos_of_ne_zero fun h => some (UInt32.toNat_inj.mp h)
    obtain ⟨m, found, -⟩ := exists_sub? (x := n) (y := 1) positive
    rw [found] at none
    cases none
  | case3 n written some m found ih =>
    have less : m.toNat + 1 = n.toNat := toNat_sub? found
    have last : (m % 26).toNat = (n.toNat - 1) % 26 := by
      rw [UInt32.toNat_mod, ← less]
      rfl
    have rest : (m / 26).toNat = (n.toNat - 1) / 26 := by
      rw [UInt32.toNat_div, ← less]
      rfl
    have letter := letter?_eq (n := m % 26) (last ▸ Nat.mod_lt _ (by decide))
    have numeral : Column.numeral n.toNat =
        Column.numeral ((n.toNat - 1) / 26) ++ [Column.digit ((n.toNat - 1) % 26)] := by
      rw [Column.numeral, if_neg (by omega)]
    rw [letter, Option.bind_some, ih, rest, last, numeral, List.append_assoc, List.singleton_append]

/-- The letters of a column are written without any overflow, and as they are with numbers. -/
theorem letters?_eq (col : UInt16) : letters? col = some (Column.letters col.toNat) := by
  have one : (1 : UInt32).toNat = 1 := rfl
  have size : UInt32.size = 4294967296 := rfl
  have short : col.toUInt32.toNat = col.toNat := UInt16.toNat_toUInt32 col
  have limit : col.toNat < 65536 := UInt16.toNat_lt col
  obtain ⟨n, found, value⟩ := exists_add? (x := col.toUInt32) (y := 1) (by omega)
  rw [letters?, found]
  dsimp only [Option.bind_eq_bind, Option.bind_some]
  rw [numeral?_eq, value, short, one, List.append_nil]
  rfl

end Words

namespace Address

variable {a : Address} {cs letters digits : List Char}

def decimals : List Char := "0123456789".toList

def rowNumber (cs : List Char) : Nat := valueIn 10 decimals.idxOf cs

/-- The letters and digits that name an address. -/
structure NamedBy (a : Address) (letters digits : List Char) : Prop where
  lettered : letters ≠ []
  alphabetic : ∀ c ∈ letters, c.isAlpha = true
  col : Column.number letters = a.col + 1
  col_le : Column.number letters ≤ maxCols
  numbered : digits ≠ []
  decimal : ∀ c ∈ digits, c.isDigit = true
  row : rowNumber digits = a.row + 1
  row_le : rowNumber digits ≤ maxRows

theorem ofDigitChars_eq (decimal : ∀ c ∈ cs, c.isDigit = true) (n : Nat) :
    Nat.ofDigitChars 10 cs n = n * Nat.pow 10 cs.length + rowNumber cs := by
  induction cs generalizing n with
  | nil => exact (Nat.mul_one n).symm
  | cons c cs ih =>
    obtain ⟨digit, decimal⟩ := List.forall_mem_cons.mp decimal
    have value : c.toNat - '0'.toNat = decimals.idxOf c :=
      Text.of_isDigit (P := fun c => c.toNat - '0'.toNat = decimals.idxOf c) (by decide) digit
    have power : Nat.pow 10 (c :: cs).length = 10 * Nat.pow 10 cs.length := Nat.pow_succ'
    rw [Nat.ofDigitChars_cons, ih decimal, value, power, Nat.add_mul, Nat.mul_comm 10 n,
      Nat.mul_assoc, Nat.add_assoc]
    rfl

theorem digitsValue_eq_rowNumber (decimal : ∀ c ∈ cs, c.isDigit = true) :
    digitsValue cs = rowNumber cs := by
  rw [digitsValue_eq, ofDigitChars_eq decimal, Nat.zero_mul, Nat.zero_add]

theorem rowOfDigits_eq_ok_iff {text : String} {row : Nat} :
    rowOfDigits text digits = .ok row ↔ digits ≠ [] ∧ (∀ c ∈ digits, c.isDigit = true) ∧
      rowNumber digits = row + 1 ∧ rowNumber digits ≤ maxRows := by
  unfold rowOfDigits
  by_cases empty : digits.isEmpty = true
  · rw [if_pos empty]
    simp [List.isEmpty_iff.mp empty]
  by_cases decimal : ∀ c ∈ digits, c.isDigit = true
  · have some : digits ≠ [] := fun none => empty (List.isEmpty_iff.mpr none)
    have all : ¬ (!digits.all Char.isDigit) = true := by simpa using decimal
    have limit : maxRows < rowLimit := by decide
    rw [if_neg empty, if_neg all, digitsValue_eq_rowNumber decimal, and_iff_right some,
      and_iff_right decimal]
    dsimp only
    by_cases long : rowLimit ≤ rowNumber digits
    · rw [if_pos long]
      simp only [reduceCtorEq, false_iff]
      omega
    by_cases zero : rowNumber digits = 0
    · rw [if_neg long, if_pos zero]
      simp only [reduceCtorEq, false_iff]
      omega
    by_cases beyond : maxRows < rowNumber digits
    · rw [if_neg long, if_neg zero, if_pos beyond]
      simp only [reduceCtorEq, false_iff]
      omega
    · rw [if_neg long, if_neg zero, if_neg beyond, Except.ok.injEq]
      omega
  · have all : (!digits.all Char.isDigit) = true := by simpa using decimal
    rw [if_neg empty, if_pos all]
    exact iff_of_false (by simp) fun h => decimal h.2.1

theorem run_named (alphabetic : ∀ c ∈ letters, c.isAlpha = true)
    (decimal : ∀ c ∈ digits, c.isDigit = true) :
    (letters ++ digits).takeWhile Char.isAlpha = letters ∧
      (letters ++ digits).dropWhile Char.isAlpha = digits := by
  apply Text.run_append alphabetic
  intro c first
  exact Text.of_isDigit (P := fun c => c.isAlpha = false) (by decide)
    (decimal c (List.mem_of_mem_head? first))

theorem ofChars_of_namedBy (named : NamedBy a letters digits)
    (text : Text.trim cs = letters ++ digits) : ofChars cs = .ok a := by
  obtain ⟨first, rest⟩ := run_named named.alphabetic named.decimal
  have empty : (letters ++ digits).isEmpty = false :=
    List.isEmpty_eq_false_iff.mpr (List.append_ne_nil_of_left_ne_nil named.lettered _)
  have unnamed : letters.isEmpty = false := List.isEmpty_eq_false_iff.mpr named.lettered
  have col : Column.ofLetters letters = .ok a.col :=
    (Column.ofLetters_eq_ok_iff named.alphabetic named.lettered).mpr ⟨named.col, named.col_le⟩
  have row : rowOfDigits (String.ofList (letters ++ digits)) digits = .ok a.row :=
    rowOfDigits_eq_ok_iff.mpr ⟨named.numbered, named.decimal, named.row, named.row_le⟩
  unfold ofChars
  simp only [text, first, rest, empty, unnamed, col, row, Bool.false_eq_true, if_false, Except.map]

theorem namedBy_of_ofChars (h : ofChars cs = .ok a) :
    NamedBy a ((Text.trim cs).takeWhile Char.isAlpha) ((Text.trim cs).dropWhile Char.isAlpha) := by
  unfold ofChars at h
  dsimp only at h
  by_cases empty : (Text.trim cs).isEmpty = true
  · rw [if_pos empty] at h
    cases h
  by_cases unnamed : ((Text.trim cs).takeWhile Char.isAlpha).isEmpty = true
  · rw [if_neg empty, if_pos unnamed] at h
    cases h
  rw [if_neg empty, if_neg unnamed] at h
  have lettered : (Text.trim cs).takeWhile Char.isAlpha ≠ [] :=
    fun none => unnamed (List.isEmpty_iff.mpr none)
  have alphabetic : ∀ c ∈ (Text.trim cs).takeWhile Char.isAlpha, c.isAlpha = true :=
    fun c hc => List.mem_takeWhile_imp hc
  cases readCol : Column.ofLetters ((Text.trim cs).takeWhile Char.isAlpha) with
  | error cause =>
    rw [readCol] at h
    cases h
  | ok col =>
    rw [readCol] at h
    cases readRow : rowOfDigits (String.ofList (Text.trim cs))
        ((Text.trim cs).dropWhile Char.isAlpha) with
    | error cause =>
      simp [readRow, Except.map] at h
    | ok row =>
      simp only [readRow, Except.map, Except.ok.injEq] at h
      subst h
      obtain ⟨value, inside⟩ := (Column.ofLetters_eq_ok_iff alphabetic lettered).mp readCol
      obtain ⟨numbered, decimal, value', inside'⟩ := rowOfDigits_eq_ok_iff.mp readRow
      exact ⟨lettered, alphabetic, value, inside, numbered, decimal, value', inside'⟩

theorem trim_named (lettered : letters ≠ []) (alphabetic : ∀ c ∈ letters, c.isAlpha = true)
    (numbered : digits ≠ []) (decimal : ∀ c ∈ digits, c.isDigit = true) :
    Text.trim (letters ++ digits) = letters ++ digits := by
  obtain ⟨first, rest, rfl⟩ := List.exists_cons_of_ne_nil lettered
  apply Text.trim_eq_self
  · intro c hc
    obtain rfl := Option.some.inj hc
    exact Text.of_isAlpha (P := fun c => Text.isBlank c = false) (by decide) (by decide)
      (alphabetic _ List.mem_cons_self)
  · intro c hc
    rw [List.getLast?_append, List.getLast?_eq_some_getLast numbered] at hc
    obtain rfl := Option.some.inj hc
    exact Text.of_isDigit (P := fun c => Text.isBlank c = false) (by decide)
      (decimal _ (List.getLast_mem numbered))

theorem ofChars_append_eq_ok_iff (lettered : letters ≠ [])
    (alphabetic : ∀ c ∈ letters, c.isAlpha = true) (numbered : digits ≠ [])
    (decimal : ∀ c ∈ digits, c.isDigit = true) :
    ofChars (letters ++ digits) = .ok a ↔ NamedBy a letters digits := by
  have trimmed := trim_named lettered alphabetic numbered decimal
  constructor
  · intro h
    have named := namedBy_of_ofChars h
    obtain ⟨first, rest⟩ := run_named alphabetic decimal
    rwa [trimmed, first, rest] at named
  · intro named
    exact ofChars_of_namedBy named trimmed

/-- A text is read as an address if letters and digits that name it are all there is of it between
blanks. -/
theorem ofChars_eq_ok_iff : ofChars cs = .ok a ↔
    ∃ letters digits, Text.trim cs = letters ++ digits ∧ NamedBy a letters digits :=
  ⟨fun h => ⟨_, _, List.takeWhile_append_dropWhile.symm, namedBy_of_ofChars h⟩,
    fun ⟨_, _, text, named⟩ => ofChars_of_namedBy named text⟩

theorem NamedBy.row_lt (named : NamedBy a letters digits) : a.row < maxRows := by
  have value := named.row
  have inside := named.row_le
  omega

theorem NamedBy.col_lt (named : NamedBy a letters digits) : a.col < maxCols := by
  have value := named.col
  have inside := named.col_le
  omega

theorem ofText_label_iff : ofText a.label = .ok a ↔ ∃ e : Extent, a ∈ e := by
  constructor
  · intro h
    have named := namedBy_of_ofChars h
    exact ⟨⟨maxRows, maxCols, by decide, Nat.le_refl _, by decide, Nat.le_refl _⟩,
      Extent.mem_iff.mpr ⟨named.row_lt, named.col_lt⟩⟩
  · rintro ⟨e, inside⟩
    exact ofText_label_of_mem inside

/-- A text is an address exactly if it is a name of one, nothing overflows on any text, the label of
an address of a sheet is read as that address, and the letters of a column are the only numeral in
capital letters of the column counted from one. -/
theorem reads_names_and_writes_labels (text : String) (a : Address) (col : UInt16)
    (cs : List Char) :
    (ofText text = .ok a ↔ ∃ letters digits, Text.trim text.toList = letters ++ digits ∧
      NamedBy a letters digits) ∧
    Words.ofText? text = some (ofText text) ∧
    (ofText a.label = .ok a ↔ ∃ e : Extent, a ∈ e) ∧
    Words.letters? col = some (Column.letters col.toNat) ∧
    ((Column.letters col.toNat).toList = cs ↔
      (∀ c ∈ cs, c ∈ Column.alphabet) ∧ Column.number cs = col.toNat + 1) := by
  refine ⟨ofChars_eq_ok_iff, Words.ofText?_eq text, ofText_label_iff, Words.letters?_eq col, ?_⟩
  rw [Column.letters, String.toList_ofList, eq_comm]
  exact Column.eq_numeral_iff

/-- Blanks around a name, small letters and zeros in front of the row. -/
example : ofText "\tzZ0010000 " = .ok ⟨9999, 701⟩ := by rfl

end Address

end ReactiveSheet
