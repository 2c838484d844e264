import Mathlib.Data.List.TakeWhile
import ReactiveSheet.Sheet.Extent

/-!
Numerals in base twenty-six, and the names of addresses.

A numeral is worth the sum of its digits, each times a power of the base. As none of the letters is
zero, each number has exactly one numeral in capital letters, and a numeral is worth more the
further it is read; so reading may stop at the first number that is too large. The name of an
address is read as that address.
-/

namespace ReactiveSheet

namespace Text

variable {P : Char → Prop} {c : Char}

theorem of_isDigit (h : ∀ n : Fin 10, P (Nat.digitChar n)) (hc : c.isDigit) : P c := by
  simp only [Char.isDigit, Bool.and_eq_true, decide_eq_true_eq, ge_iff_le,
    UInt32.le_iff_toNat_le] at hc
  have low : 48 ≤ c.toNat := hc.1
  have high : c.toNat ≤ 57 := hc.2
  have small : c.toNat - 48 < 10 := by omega
  have value : (Nat.digitChar (c.toNat - 48)).toNat = c.toNat := by
    rw [Nat.toNat_digitChar_of_lt_ten small]
    omega
  have same := h ⟨c.toNat - 48, small⟩
  rwa [Char.toNat_inj.mp value] at same

/-- What holds of the letters from A to Z, in either case, holds of every letter. -/
theorem of_isAlpha (capital : ∀ n : Fin 26, P (Char.ofNat (65 + n)))
    (small : ∀ n : Fin 26, P (Char.ofNat (97 + n))) (hc : c.isAlpha = true) : P c := by
  have value {first : Nat} (low : first ≤ c.toNat) :
      Char.ofNat (first + (c.toNat - first)) = c := by
    rw [Nat.add_sub_cancel' low, Char.ofNat_toNat]
  rcases (Bool.or_eq_true _ _).mp hc with upper | lower
  · obtain ⟨low, high⟩ := of_decide_eq_true upper
    have low : 65 ≤ c.toNat := UInt32.le_iff_toNat_le.mp low
    have high : c.toNat ≤ 90 := UInt32.le_iff_toNat_le.mp high
    have same := capital ⟨c.toNat - 65, by omega⟩
    rwa [value low] at same
  · obtain ⟨low, high⟩ := (Bool.and_eq_true _ _).mp lower
    have low : 97 ≤ c.toNat := UInt32.le_iff_toNat_le.mp (of_decide_eq_true low)
    have high : c.toNat ≤ 122 := UInt32.le_iff_toNat_le.mp (of_decide_eq_true high)
    have same := small ⟨c.toNat - 97, by omega⟩
    rwa [value low] at same

theorem run_append {p : Char → Bool} {run rest : List Char} (h : ∀ c ∈ run, p c = true)
    (stop : ∀ c ∈ rest.head?, p c = false) :
    (run ++ rest).takeWhile p = run ∧ (run ++ rest).dropWhile p = rest := by
  rw [List.takeWhile_append_of_pos h, List.dropWhile_append_of_pos h]
  cases rest with
  | nil => exact ⟨List.append_nil run, rfl⟩
  | cons c rest =>
    have stops : ¬ p c = true := by rw [stop c rfl]; exact Bool.false_ne_true
    rw [List.takeWhile_cons_of_neg stops, List.dropWhile_cons_of_neg stops]
    exact ⟨List.append_nil run, rfl⟩

theorem trimLeft_cons_of_blank (h : isBlank c = true) (cs : List Char) :
    trimLeft (c :: cs) = trimLeft cs := List.dropWhile_cons_of_pos h

theorem trimLeft_cons_of_visible (h : isBlank c = false) (cs : List Char) :
    trimLeft (c :: cs) = c :: cs := List.dropWhile_cons_of_neg (by simp [h])

theorem trimLeft_append {blanks : List Char} (h : ∀ c ∈ blanks, isBlank c = true)
    (cs : List Char) : trimLeft (blanks ++ cs) = trimLeft cs := List.dropWhile_append_of_pos h

theorem trimLeft_eq_self {cs : List Char} (h : ∀ c ∈ cs.head?, isBlank c = false) :
    trimLeft cs = cs := by
  cases cs with
  | nil => rfl
  | cons c cs => exact trimLeft_cons_of_visible (h c rfl) cs

theorem visible_of_trimLeft {cs tail : List Char} (h : trimLeft cs = c :: tail) :
    isBlank c = false := by
  have stopped := List.head?_dropWhile_not isBlank cs
  rw [trimLeft] at h
  rw [h] at stopped
  exact stopped

theorem trimRight_eq_self {cs : List Char} (h : ∀ c ∈ cs.getLast?, isBlank c = false) :
    trimRight cs = cs := by
  have first : ∀ c ∈ cs.reverse.head?, isBlank c = false := by rwa [List.head?_reverse]
  exact (congrArg List.reverse (trimLeft_eq_self first)).trans cs.reverse_reverse

theorem trim_append_blank (h : isBlank c = true) (cs : List Char) : trim (cs ++ [c]) = trim cs := by
  have right (cs : List Char) : trimRight (cs ++ [c]) = trimRight cs := by
    rw [trimRight, List.reverse_append, List.reverse_singleton, List.singleton_append]
    exact congrArg List.reverse (trimLeft_cons_of_blank h cs.reverse)
  rw [trim, trimLeft, List.dropWhile_append]
  split
  · rename_i none
    have blank : trimLeft [c] = [] := trimLeft_cons_of_blank h []
    have nothing : trimLeft cs = [] := List.isEmpty_iff.mp none
    rw [trim, nothing]
    exact congrArg trimRight blank
  · exact right _

theorem trim_withoutReturn (line : List Char) :
    trim (withoutReturn line).reverse = trim line.reverse := by
  unfold withoutReturn
  split
  · rw [List.reverse_cons, trim_append_blank (by decide)]
  · rfl

theorem trim_eq_self {cs : List Char} (first : ∀ c ∈ cs.head?, isBlank c = false)
    (last : ∀ c ∈ cs.getLast?, isBlank c = false) : trim cs = cs := by
  rw [trim, trimLeft_eq_self first, trimRight_eq_self last]

end Text

namespace Column

theorem of_mem_numeral {P : Char → Prop} (h : ∀ n : Fin 26, P (digit n)) {n : Nat} {c : Char}
    (hc : c ∈ numeral n) : P c := by
  fun_induction numeral n with
  | case1 => exact absurd hc List.not_mem_nil
  | case2 n some ih =>
    rcases List.mem_append.mp hc with before | last
    · exact ih before
    · rw [List.mem_singleton.mp last]
      exact h ⟨(n - 1) % 26, Nat.mod_lt _ (by decide)⟩

variable {n : Nat}

theorem digitValue?_digit (n : Fin 26) : digitValue? (digit n) = some (n.val + 1) := by
  revert n
  decide

/-- Reading a numeral gives its number, up to the last column. -/
theorem accumulate_numeral (whole rest : List Char) (h : n ≤ maxCols) :
    accumulate whole 0 (numeral n ++ rest) = accumulate whole n rest := by
  fun_induction numeral n generalizing rest with
  | case1 => rfl
  | case2 n some ih =>
    have last := digitValue?_digit ⟨(n - 1) % 26, Nat.mod_lt _ (by decide)⟩
    have value : (n - 1) / 26 * 26 + ((n - 1) % 26 + 1) = n := by omega
    rw [List.append_assoc, ih _ (by omega), List.singleton_append, accumulate, last]
    simp only [value, if_neg (Nat.not_lt.mpr h)]

theorem isAlpha_of_mem_numeral {c : Char} (h : c ∈ numeral n) : c.isAlpha = true :=
  of_mem_numeral (P := fun c => c.isAlpha = true) (by decide) h

theorem numeral_ne_nil (h : n ≠ 0) : numeral n ≠ [] := by
  rw [numeral, if_neg h]
  exact List.append_ne_nil_of_right_ne_nil _ (List.cons_ne_nil _ _)

theorem ofLetters_numeral {col : Nat} (h : col < maxCols) :
    ofLetters (numeral (col + 1)) = .ok col := by
  have some : (numeral (col + 1)).isEmpty = false :=
    List.isEmpty_eq_false_iff.mpr (numeral_ne_nil (Nat.succ_ne_zero col))
  have read := accumulate_numeral (numeral (col + 1)) [] (n := col + 1) h
  rw [List.append_nil] at read
  rw [ofLetters, some, read]
  rfl

end Column

namespace Address

variable {a : Address}

theorem toList_label (a : Address) :
    a.label.toList = Column.numeral (a.col + 1) ++ Nat.toDigits 10 (a.row + 1) := by
  rw [label, String.toList_append, Column.letters, String.toList_ofList,
    Nat.toString_eq_ofList_toDigits, String.toList_ofList]

theorem digitsValue_eq (cs : List Char) : digitsValue cs = Nat.ofDigitChars 10 cs 0 :=
  Nat.ofDigitChars_eq_foldl.symm

theorem digitsValue_toDigits (n : Nat) : digitsValue (Nat.toDigits 10 n) = n :=
  (digitsValue_eq _).trans Nat.ofDigitChars_ten_toDigits

theorem isDigit_of_mem_toDigits {n : Nat} {c : Char} (h : c ∈ Nat.toDigits 10 n) :
    c.isDigit = true := Nat.isDigit_of_mem_toDigits (by decide) (by decide) h

theorem rowOfDigits_toDigits (text : String) {row : Nat} (h : row < maxRows) :
    rowOfDigits text (Nat.toDigits 10 (row + 1)) = .ok row := by
  have some : (Nat.toDigits 10 (row + 1)).isEmpty = false :=
    List.isEmpty_eq_false_iff.mpr Nat.toDigits_ne_nil
  have digits : (Nat.toDigits 10 (row + 1)).all Char.isDigit = true :=
    List.all_eq_true.mpr fun c hc => isDigit_of_mem_toDigits hc
  have limit : ¬ rowLimit ≤ row + 1 := by
    have : row + 1 ≤ 10000 := h
    have : (10000 : Nat) < rowLimit := by decide
    omega
  simp only [rowOfDigits, some, digits, digitsValue_toDigits, Bool.not_true, Bool.false_eq_true,
    if_false, limit, Nat.succ_ne_zero, Nat.not_lt.mpr h]
  rfl

theorem exists_label_eq (a : Address) :
    ∃ n : Fin 26, ∃ tail, a.label.toList = Column.digit n :: tail := by
  obtain ⟨c, letters, numeral⟩ :=
    List.exists_cons_of_ne_nil (Column.numeral_ne_nil (Nat.succ_ne_zero a.col))
  have first : c ∈ Column.numeral (a.col + 1) := numeral ▸ List.mem_cons_self
  obtain ⟨n, rfl⟩ := Column.of_mem_numeral (P := fun c => ∃ n : Fin 26, c = Column.digit n)
    (fun n => ⟨n, rfl⟩) first
  exact ⟨n, letters ++ Nat.toDigits 10 (a.row + 1), by rw [toList_label, numeral, List.cons_append]⟩

theorem of_mem_label {P : Char → Prop} (letters : ∀ n : Fin 26, P (Column.digit n))
    (digits : ∀ n : Fin 10, P (Nat.digitChar n)) {c : Char} (h : c ∈ a.label.toList) : P c := by
  rw [toList_label] at h
  rcases List.mem_append.mp h with letter | digit
  · exact Column.of_mem_numeral letters letter
  · exact Text.of_isDigit digits (isDigit_of_mem_toDigits digit)

theorem trim_label (a : Address) : Text.trim a.label.toList = a.label.toList := by
  have visible (c : Char) (h : c ∈ a.label.toList) : Text.isBlank c = false :=
    of_mem_label (P := fun c => Text.isBlank c = false) (by decide) (by decide) h
  apply Text.trim_eq_self
  · exact fun c hc => visible c (List.mem_of_mem_head? hc)
  · exact fun c hc => visible c (List.mem_of_mem_getLast? hc)

theorem run_label (a : Address) :
    a.label.toList.takeWhile Char.isAlpha = Column.numeral (a.col + 1) ∧
      a.label.toList.dropWhile Char.isAlpha = Nat.toDigits 10 (a.row + 1) := by
  rw [toList_label]
  apply Text.run_append
  · exact fun c hc => Column.isAlpha_of_mem_numeral hc
  · intro c hc
    exact Text.of_isDigit (P := fun c => c.isAlpha = false) (by decide)
      (isDigit_of_mem_toDigits (List.mem_of_mem_head? hc))

theorem ofText_label (row : a.row < maxRows) (col : a.col < maxCols) :
    ofText a.label = .ok a := by
  obtain ⟨letters, digits⟩ := run_label a
  have some : a.label.toList.isEmpty = false := by
    rw [toList_label, List.isEmpty_eq_false_iff]
    exact List.append_ne_nil_of_right_ne_nil _ Nat.toDigits_ne_nil
  have named : (Column.numeral (a.col + 1)).isEmpty = false :=
    List.isEmpty_eq_false_iff.mpr (Column.numeral_ne_nil (Nat.succ_ne_zero a.col))
  simp only [ofText, ofChars, trim_label, letters, digits, some, named, Bool.false_eq_true,
    if_false, Column.ofLetters_numeral col, rowOfDigits_toDigits _ row]
  rfl

theorem ofText_label_of_mem {e : Extent} (h : a ∈ e) : ofText a.label = .ok a :=
  ofText_label (Nat.lt_of_lt_of_le h.1 e.rows_le) (Nat.lt_of_lt_of_le h.2 e.cols_le)

end Address

/-- What a numeral is worth in a base, by what each character stands for. -/
def valueIn (base : Nat) (value : Char → Nat) : List Char → Nat
  | [] => 0
  | c :: cs => value c * Nat.pow base cs.length + valueIn base value cs

variable {base : Nat} {value : Char → Nat}

theorem valueIn_append (cs ds : List Char) : valueIn base value (cs ++ ds) =
    valueIn base value cs * Nat.pow base ds.length + valueIn base value ds := by
  induction cs with
  | nil => simp [valueIn]
  | cons c cs ih =>
    have power : Nat.pow base (cs ++ ds).length =
        Nat.pow base cs.length * Nat.pow base ds.length := by
      rw [List.length_append]
      exact Nat.pow_add base cs.length ds.length
    rw [List.cons_append, valueIn, valueIn, ih, power, Nat.add_mul, Nat.mul_assoc, Nat.add_assoc]

theorem le_mul_pow {b : Nat} (positive : 0 < b) (n k : Nat) : n ≤ n * Nat.pow b k :=
  Nat.le_mul_of_pos_right n (Nat.pow_pos positive)

namespace Column

variable {n : Nat} {c : Char} {cs : List Char}

def alphabet : List Char := "ABCDEFGHIJKLMNOPQRSTUVWXYZ".toList

/-- The place of a letter in the alphabet, counted from one, whatever its case. -/
def rank (c : Char) : Nat := alphabet.idxOf c.toUpper + 1

/-- The number of a column by its letters, counted from one. -/
def number (cs : List Char) : Nat := valueIn 26 rank cs

theorem digitValue?_letter (h : c.isAlpha = true) : digitValue? c = some (rank c) :=
  Text.of_isAlpha (P := fun c => digitValue? c = some (rank c)) (by decide) (by decide) h

theorem number_cons_pos (c : Char) (cs : List Char) : 0 < number (c :: cs) := by
  have first := le_mul_pow (b := 26) (by decide) (rank c) cs.length
  have : 0 < rank c := Nat.succ_pos _
  unfold number valueIn
  omega

/-- Reading on from `n` gives the number, unless it is beyond the last column. -/
theorem accumulate_letters (whole : List Char) (letters : ∀ c ∈ cs, c.isAlpha = true)
    (h : n ≤ maxCols) : accumulate whole n cs =
      if n * Nat.pow 26 cs.length + number cs ≤ maxCols
      then .ok (n * Nat.pow 26 cs.length + number cs)
      else .error (.beyondLast (String.ofList whole)) := by
  induction cs generalizing n with
  | nil =>
    have value : n * Nat.pow 26 ([] : List Char).length + number [] = n := Nat.mul_one n
    rw [value, if_pos h, accumulate]
  | cons c cs ih =>
    obtain ⟨letter, letters⟩ := List.forall_mem_cons.mp letters
    have value : n * Nat.pow 26 (c :: cs).length + number (c :: cs) =
        (n * 26 + rank c) * Nat.pow 26 cs.length + number cs := by
      have power : Nat.pow 26 (c :: cs).length = 26 * Nat.pow 26 cs.length := Nat.pow_succ'
      rw [power, ← Nat.mul_assoc, Nat.add_mul]
      exact (Nat.add_assoc _ _ _).symm
    have more := le_mul_pow (b := 26) (by decide) (n * 26 + rank c) cs.length
    rw [accumulate, digitValue?_letter letter, value]
    dsimp only
    by_cases beyond : maxCols < n * 26 + rank c
    · rw [if_pos beyond, if_neg (by omega)]
    · rw [if_neg beyond, ih letters (by omega)]

theorem ofLetters_eq_ok_iff {col : Nat} (letters : ∀ c ∈ cs, c.isAlpha = true) (some : cs ≠ []) :
    ofLetters cs = .ok col ↔ number cs = col + 1 ∧ number cs ≤ maxCols := by
  have read := accumulate_letters cs letters (Nat.zero_le maxCols)
  rw [Nat.zero_mul, Nat.zero_add] at read
  have positive : 0 < number cs := by
    obtain ⟨c, rest, rfl⟩ := List.exists_cons_of_ne_nil some
    exact number_cons_pos c rest
  rw [ofLetters, List.isEmpty_eq_false_iff.mpr some, read]
  by_cases inside : number cs ≤ maxCols
  · rw [if_pos inside]
    simp only [Bool.false_eq_true, if_false, Except.map, Except.ok.injEq]
    omega
  · rw [if_neg inside]
    simp [Except.map, inside]

theorem rank_le (h : c ∈ alphabet) : rank c ≤ 26 := by
  have letters : alphabet.all (fun c => rank c ≤ 26) = true := by decide
  exact of_decide_eq_true (List.all_eq_true.mp letters c h)

theorem digit_rank (h : c ∈ alphabet) : digit (rank c - 1) = c := by
  have letters : alphabet.all (fun c => digit (rank c - 1) = c) = true := by decide
  exact of_decide_eq_true (List.all_eq_true.mp letters c h)

theorem number_append_singleton (cs : List Char) (c : Char) :
    number (cs ++ [c]) = number cs * 26 + rank c := by
  unfold number
  rw [valueIn_append]
  simp [valueIn]

theorem number_numeral (n : Nat) : number (numeral n) = n := by
  fun_induction numeral n with
  | case1 => rfl
  | case2 n some ih =>
    have ranks : ∀ d : Fin 26, rank (digit d) = d + 1 := by decide
    have last : rank (digit ((n - 1) % 26)) = (n - 1) % 26 + 1 :=
      ranks ⟨(n - 1) % 26, Nat.mod_lt _ (by decide)⟩
    rw [number_append_singleton, ih, last]
    omega

/-- The numeral of a number is the only one in capital letters that is worth it. -/
theorem eq_numeral_iff : cs = numeral n ↔ (∀ c ∈ cs, c ∈ alphabet) ∧ number cs = n := by
  constructor
  · rintro rfl
    exact ⟨fun c hc => of_mem_numeral (P := fun c => c ∈ alphabet) (by decide) hc,
      number_numeral n⟩
  · rintro ⟨letters, worth⟩
    -- along the numeral from its end, as it is written
    fun_induction numeral n generalizing cs with
    | case1 =>
      cases cs with
      | nil => rfl
      | cons c cs =>
        exact absurd worth (number_cons_pos c cs).ne'
    | case2 n some ih =>
      rcases List.eq_nil_or_concat cs with rfl | ⟨init, c, rfl⟩
      · exact absurd worth.symm some
      · rw [List.concat_eq_append] at letters worth ⊢
        obtain ⟨before, last⟩ := List.forall_mem_append.mp letters
        have last : c ∈ alphabet := last c List.mem_cons_self
        have upper := rank_le last
        have lower : 0 < rank c := Nat.succ_pos _
        rw [number_append_singleton] at worth
        have whole : number init = (n - 1) / 26 := by omega
        have rest : (n - 1) % 26 = rank c - 1 := by omega
        rw [rest, digit_rank last, ← ih before whole]

end Column

end ReactiveSheet
