import ReactiveSheet.Proofs.Address.Notation
import ReactiveSheet.Proofs.Decimal.Alike
import ReactiveSheet.Proofs.Decimal.Exact

/-!
Every number that is written reads back.

The text of a finite double is digits with at most one point among them, with a minus sign before
them if the number is below zero. They were chosen because they read back as the same number, or
they are all the digits that the number has; in either case the reader finds the number again.
-/

namespace ReactiveSheet

namespace Numeral

variable {c : Char} {cs : List Char} {d : Decimal}

theorem float?_of_unsigned (minus : c ≠ '-') (plus : c ≠ '+') (cs : List Char) :
    float? (c :: cs) = magnitude? (c :: cs) := by
  rw [float?]
  · exact fun rest here => minus (List.cons.inj here).1
  · exact fun rest here => plus (List.cons.inj here).1

theorem of_start {P : Char → Prop} (digits : ∀ n : Fin 10, P (Nat.digitChar n)) (point : P '.')
    (start : c.isDigit = true ∨ c = '.') : P c := by
  rcases start with digit | rfl
  · exact Text.of_isDigit digits digit
  · exact point

theorem magnitude?_of_start (start : c.isDigit = true ∨ c = '.') (cs : List Char) :
    magnitude? (c :: cs) = (decimal? (c :: cs)).map Decimal.toFloat := by
  have same : c.toLower = c := of_start (P := fun c => c.toLower = c) (by decide) rfl start
  have apart {word : List Char} (letter : Char) (hw : letter ∈ word.head?)
      (other : c ≠ letter) : (c :: cs).map Char.toLower ≠ word := by
    rintro rfl
    exact other (same.symm.trans (Option.some.inj hw))
  have notI : c ≠ 'i' := of_start (P := (· ≠ 'i')) (by decide) (by decide) start
  have notN : c ≠ 'n' := of_start (P := (· ≠ 'n')) (by decide) (by decide) start
  have notShort : (c :: cs).map Char.toLower ≠ "inf".toList := apart 'i' rfl notI
  have notLong : (c :: cs).map Char.toLower ≠ "infinity".toList := apart 'i' rfl notI
  have notNone : (c :: cs).map Char.toLower ≠ "nan".toList := apart 'n' rfl notN
  unfold magnitude?
  simp only [notShort, notLong, notNone, decide_false, Bool.or_self, Bool.false_eq_true, if_false]

theorem float?_of_start (start : c.isDigit = true ∨ c = '.') (cs : List Char) :
    float? (c :: cs) = (decimal? (c :: cs)).map Decimal.toFloat := by
  have minus : c ≠ '-' := of_start (P := (· ≠ '-')) (by decide) (by decide) start
  have plus : c ≠ '+' := of_start (P := (· ≠ '+')) (by decide) (by decide) start
  rw [float?_of_unsigned minus plus, magnitude?_of_start start]

/-- A numeral starts with a digit, or with the point before a digit. -/
theorem start_of_decimal? (h : decimal? cs = some d) :
    ∃ c tail, cs = c :: tail ∧
      (c.isDigit = true ∨ c = '.' ∧ ∃ c' ∈ tail.head?, c'.isDigit = true) := by
  cases cs with
  | nil => exact nomatch h
  | cons c tail =>
    refine ⟨c, tail, rfl, ?_⟩
    by_cases digit : c.isDigit = true
    · exact Or.inl digit
    · have whole : (c :: tail).takeWhile Char.isDigit = [] := List.takeWhile_cons_of_neg digit
      have rest : (c :: tail).dropWhile Char.isDigit = c :: tail := List.dropWhile_cons_of_neg digit
      simp only [decimal?, whole, rest] at h
      split at h
      · rename_i point
        obtain ⟨rfl, rfl⟩ := List.cons.inj point
        refine Or.inr ⟨rfl, ?_⟩
        cases tail with
        | nil => exact nomatch h
        | cons c' tail =>
          refine ⟨c', rfl, ?_⟩
          by_contra other
          rw [List.takeWhile_cons_of_neg other] at h
          exact nomatch h
      · exact nomatch h

theorem of_exponent? {n : Int} (h : exponent? cs = some n) :
    ∃ digits : List Char, digits ≠ [] ∧ (∀ c ∈ digits, c.isDigit = true) ∧
      (cs = digits ∨ cs = '-' :: digits ∨ cs = '+' :: digits) := by
  have unsigned {digits : List Char} (h : exponent?.unsigned? digits ≠ none) :
      digits ≠ [] ∧ ∀ c ∈ digits, c.isDigit = true := by
    unfold exponent?.unsigned? at h
    split at h
    · exact absurd rfl h
    · rename_i some
      simpa using some
  unfold exponent? at h
  split at h
  · rename_i digits
    obtain ⟨some, all⟩ := @unsigned digits fun none => by rw [none] at h; exact nomatch h
    exact ⟨digits, some, all, Or.inr (Or.inl rfl)⟩
  · rename_i digits
    obtain ⟨some, all⟩ := @unsigned digits fun none => by rw [none] at h; exact nomatch h
    exact ⟨digits, some, all, Or.inr (Or.inr rfl)⟩
  · obtain ⟨some, all⟩ := @unsigned cs fun none => by rw [none] at h; exact nomatch h
    exact ⟨cs, some, all, Or.inl rfl⟩

end Numeral

/-- The digits of a decimal in writing: some before the point, and if there is a point, some after
it. -/
inductive Decimal.Written : List Char → Decimal → Prop where
  | whole (cs : List Char) (some : cs ≠ []) (digits : ∀ c ∈ cs, c.isDigit) :
    Written cs ⟨Address.digitsValue cs, 0⟩
  | pointed (cs fraction : List Char) (some : cs ≠ []) (digits : ∀ c ∈ cs, c.isDigit)
      (digits' : ∀ c ∈ fraction, c.isDigit) :
    Written (cs ++ '.' :: fraction) ⟨Address.digitsValue (cs ++ fraction), -fraction.length⟩

namespace Decimal

theorem digitsValue_leftpad (n width : Nat) :
    Address.digitsValue ((Nat.toDigits 10 n).leftpad width '0') = n := by
  rw [Address.digitsValue_eq, List.leftpad, Nat.ofDigitChars_append,
    Nat.ofDigitChars_replicate_zero, Nat.mul_zero, Nat.ofDigitChars_ten_toDigits]

theorem isDigit_of_mem_leftpad {n width : Nat} {c : Char}
    (h : c ∈ (Nat.toDigits 10 n).leftpad width '0') : c.isDigit := by
  rcases List.mem_append.mp h with padding | digit
  · rw [List.eq_of_mem_replicate padding]
    rfl
  · exact Nat.isDigit_of_mem_toDigits (by decide) (by decide) digit

theorem positional_mantissa {d : Decimal} (h : d.exponent ≤ 0) :
    d.positional.mantissa = d.mantissa := by
  unfold positional
  split
  · have : d.exponent.toNat = 0 := by omega
    rw [this]
    exact Nat.mul_one _
  · rfl

theorem positional_exponent_le (d : Decimal) : d.positional.exponent ≤ 0 := by
  unfold positional
  split
  · exact Int.le_refl 0
  · omega

theorem written_digits {d : Decimal} (h : d.exponent ≤ 0) : Written d.digits d := by
  obtain ⟨n, power⟩ := d
  obtain ⟨places, rfl⟩ : ∃ places : Nat, power = -places := ⟨(-power).toNat, by
    have : power ≤ 0 := h
    omega⟩
  have count : (-(-(places : Int))).toNat = places := by omega
  unfold digits
  simp only [positional_mantissa h, count]
  have value := digitsValue_leftpad n (places + 1)
  have digit (c : Char) (hc : c ∈ (Nat.toDigits 10 n).leftpad (places + 1) '0') : c.isDigit :=
    isDigit_of_mem_leftpad hc
  have room : places < ((Nat.toDigits 10 n).leftpad (places + 1) '0').length := by
    rw [List.length_leftpad]
    omega
  generalize (Nat.toDigits 10 n).leftpad (places + 1) '0' = all at value digit room ⊢
  split
  · subst places
    have written := Written.whole all (List.ne_nil_of_length_pos room) digit
    rw [value] at written
    exact written
  · have written := Written.pointed (all.take (all.length - places))
      (all.drop (all.length - places)) (List.ne_nil_of_length_pos (by simp; omega))
      (fun c hc => digit c (List.mem_of_mem_take hc))
      (fun c hc => digit c (List.mem_of_mem_drop hc))
    rw [List.take_append_drop, value, List.length_drop] at written
    have : all.length - (all.length - places) = places := by omega
    rw [this] at written
    exact written

namespace Written

variable {cs : List Char} {d : Decimal}

theorem decimal?_eq (h : Written cs d) : Numeral.decimal? cs = some d := by
  cases h with
  | whole cs some digits =>
    have all : cs.takeWhile Char.isDigit = cs := List.takeWhile_eq_self_iff.mpr digits
    have none : cs.dropWhile Char.isDigit = [] := List.dropWhile_eq_nil_iff.mpr digits
    simp [Numeral.decimal?, Numeral.scale?, all, none, some]
  | pointed cs fraction some digits digits' =>
    have first : (cs ++ '.' :: fraction).takeWhile Char.isDigit = cs := by
      rw [List.takeWhile_append_of_pos digits]
      simp
    have second : (cs ++ '.' :: fraction).dropWhile Char.isDigit = '.' :: fraction := by
      rw [List.dropWhile_append_of_pos digits]
      simp
    have all : fraction.takeWhile Char.isDigit = fraction := List.takeWhile_eq_self_iff.mpr digits'
    have none : fraction.dropWhile Char.isDigit = [] := List.dropWhile_eq_nil_iff.mpr digits'
    simp [Numeral.decimal?, Numeral.scale?, first, second, all, none, some]

theorem exists_cons (h : Written cs d) : ∃ c rest, cs = c :: rest ∧ c.isDigit := by
  cases h with
  | whole cs some digits =>
    obtain ⟨c, rest, rfl⟩ := List.exists_cons_of_ne_nil some
    exact ⟨c, rest, rfl, digits c List.mem_cons_self⟩
  | pointed cs fraction some digits digits' =>
    obtain ⟨c, rest, rfl⟩ := List.exists_cons_of_ne_nil some
    exact ⟨c, rest ++ '.' :: fraction, rfl, digits c List.mem_cons_self⟩

theorem of_mem {P : Char → Prop} (digit : ∀ n : Fin 10, P (Nat.digitChar n)) (point : P '.')
    (h : Written cs d) {c : Char} (hc : c ∈ cs) : P c := by
  cases h with
  | whole cs some digits => exact Text.of_isDigit digit (digits c hc)
  | pointed cs fraction some digits digits' =>
    rcases List.mem_append.mp hc with before | behind
    · exact Text.of_isDigit digit (digits c before)
    · rcases List.mem_cons.mp behind with rfl | after
      · exact point
      · exact Text.of_isDigit digit (digits' c after)

theorem magnitude?_eq (h : Written cs d) : Numeral.magnitude? cs = some d.toFloat := by
  have read := h.decimal?_eq
  obtain ⟨c, rest, rfl, digit⟩ := h.exists_cons
  rw [Numeral.magnitude?_of_start (Or.inl digit), read, Option.map_some]

theorem float?_eq (h : Written cs d) : Numeral.float? cs = some d.toFloat := by
  have read := h.decimal?_eq
  obtain ⟨c, rest, rfl, digit⟩ := h.exists_cons
  rw [Numeral.float?_of_start (Or.inl digit), read, Option.map_some]

end Written

end Decimal

namespace Double

open Float.Model (UnpackedFloat)
open Float.Model.UnpackedFloat (Sign)
open Numeral (Alike Agree)

variable {x : Float} {s : Sign} {m : Nat} {e : Int} {pos : 0 < m}

theorem alike_of_unpack {y : Float} (h : x.toModel.unpack = .finite s m e pos)
    (k : y.toModel.unpack = .finite s m e pos) : Alike x y := by
  unfold Alike
  rw [h, k]
  exact .same _

theorem unpack_exact (h : x.toModel.unpack = .finite s m e pos) :
    (Ratio.ofFloat x).exact.toFloat.toModel.unpack = .finite .positive m e pos := by
  obtain ⟨k, den, num⟩ := ofFloat_eq h
  apply unpack_toFloat (canonical_of_unpack h)
  have ten : (10 : Rat) ^ k = 5 ^ k * 2 ^ k := by rw [← mul_pow]; norm_num
  unfold Ratio.exact
  rw [den, Nat.log2_two_pow]
  simp only [Nat.pow_eq, Nat.cast_mul, Nat.cast_pow, Nat.cast_ofNat, num, zpow_neg, zpow_natCast,
    ten]
  field_simp

/-- A number is written with all its digits, or so that it reads back. -/
theorem shortest_cases (x : Float) : Decimal.shortest x = (Ratio.ofFloat x).exact ∨
    ((Decimal.shortest x).exponent ≤ 0 ∧ ((Decimal.shortest x).toFloat == x) = true) := by
  unfold Decimal.shortest
  dsimp only
  generalize hfound : (List.range 18).findSome? _ = found
  cases found with
  | none => exact Or.inl rfl
  | some d =>
    obtain ⟨n, -, hd⟩ := List.exists_of_findSome?_eq_some hfound
    obtain ⟨candidate, -, rfl⟩ := List.mem_map.mp (List.mem_of_find?_eq_some hd)
    have found := List.find?_some hd
    exact Or.inr ⟨Decimal.positional_exponent_le candidate, found⟩

theorem exact_exponent_le (r : Ratio) : r.exact.exponent ≤ 0 := by
  unfold Ratio.exact
  exact Int.neg_nonpos_of_nonneg (Int.natCast_nonneg _)

/-- The decimal that is written for a positive number reads back as the same number. -/
theorem shortest_spec (finite : x.isFinite = true) (above : 0 < x) :
    (Decimal.shortest x).exponent ≤ 0 ∧ Alike (Decimal.shortest x).toFloat x := by
  rcases shortest_cases x with all | ⟨small, found⟩
  · obtain ⟨m, e, pos, hx⟩ := unpack_of_pos finite above
    rw [all]
    exact ⟨exact_exponent_le _, alike_of_unpack (unpack_exact hx) hx⟩
  · exact ⟨small, .of_beq found⟩

theorem unpack_abs (h : x.toModel.unpack = .finite s m e pos) :
    x.abs.toModel.unpack = .finite .positive m e pos := by
  change (Float.Model.pack x.toModel.unpack.abs).unpack = _
  rw [h]
  exact unpack_pack (canonical_of_unpack h)

theorem unpack_neg (h : x.toModel.unpack = .finite s m e pos) :
    (-x).toModel.unpack = .finite (-s) m e pos := by
  change (Float.Model.pack x.toModel.unpack.neg).unpack = _
  rw [h]
  exact unpack_pack (canonical_of_unpack h)

theorem lt_zero_iff (h : x.toModel.unpack = .finite s m e pos) : x < 0 ↔ s = .negative := by
  change decide (UnpackedFloat.lt x.toModel.unpack (0 : Float).toModel.unpack = true) = true ↔ _
  have zero : (0 : Float).toModel.unpack = .zero .positive := rfl
  rw [h, zero, decide_eq_true_iff]
  cases s with
  | negative => exact ⟨fun _ => rfl, fun _ => rfl⟩
  | positive => exact ⟨fun lt => absurd lt Bool.noConfusion, fun eq => absurd eq Sign.noConfusion⟩

theorem zero_lt_iff (h : x.toModel.unpack = .finite s m e pos) : 0 < x ↔ s = .positive := by
  change decide (UnpackedFloat.lt (0 : Float).toModel.unpack x.toModel.unpack = true) = true ↔ _
  have zero : (0 : Float).toModel.unpack = .zero .positive := rfl
  rw [h, zero, decide_eq_true_iff]
  cases s with
  | negative => exact ⟨fun lt => absurd lt Bool.noConfusion, fun eq => absurd eq Sign.noConfusion⟩
  | positive => exact ⟨fun _ => rfl, fun _ => rfl⟩

theorem isFinite_of_unpack (h : x.toModel.unpack = .finite s m e pos) : x.isFinite = true := by
  change x.toModel.unpack.isFinite = true
  rw [h]
  rfl

theorem textOf_of_unpack (h : x.toModel.unpack = .finite s m e pos) :
    Numeral.textOf x =
      (if x < 0 then "-" else "") ++ String.ofList (Decimal.shortest x.abs).digits := by
  have number : x.isNaN = false := by
    change x.toModel.unpack.isNaN = false
    rw [h]
    rfl
  have bounded : x.isInf = false := by
    change x.toModel.unpack.isInf = false
    rw [h]
    rfl
  have apart : (x == 0) = false := by
    change (x.toModel.unpack.compare (.zero .positive) == some .eq) = false
    rw [h]
    cases s <;> rfl
  unfold Numeral.textOf
  rw [number, bounded, apart]
  rfl

theorem unpack_of_isFinite (finite : x.isFinite = true) :
    (x == 0) = true ∨ ∃ s m e, ∃ pos : 0 < m, x.toModel.unpack = .finite s m e pos := by
  change x.toModel.unpack.isFinite = true at finite
  change (x.toModel.unpack.compare (.zero .positive) == some .eq) = true ∨ _
  generalize x.toModel.unpack = u at finite ⊢
  cases u with
  | infinity s => exact absurd finite Bool.noConfusion
  | notANumber => exact absurd finite Bool.noConfusion
  | zero s => exact Or.inl rfl
  | finite s m e pos => exact Or.inr ⟨s, m, e, pos, rfl⟩

end Double

namespace Numeral

open Double

variable {x : Float}

theorem written_textOf (finite : x.isFinite = true) (h : ¬ x < 0) :
    ∃ d, Decimal.Written (textOf x).toList d ∧ Alike d.toFloat x := by
  rcases unpack_of_isFinite finite with zero | ⟨s, m, e, pos, hx⟩
  · have text : textOf x = "0" := (Alike.of_beq zero).textOf
    have written := Decimal.Written.whole ['0'] (List.cons_ne_nil _ _)
      (List.forall_mem_singleton.mpr rfl)
    rw [text]
    exact ⟨_, written, (Alike.of_beq zero).symm⟩
  · have abs := unpack_abs hx
    obtain ⟨small, same⟩ := shortest_spec (isFinite_of_unpack abs) ((zero_lt_iff abs).mpr rfl)
    have unsigned : Alike x.abs x := by
      cases s with
      | negative => exact absurd ((lt_zero_iff hx).mpr rfl) h
      | positive => exact alike_of_unpack abs hx
    have text : (textOf x).toList = (Decimal.shortest x.abs).digits := by
      rw [textOf_of_unpack hx, if_neg h, String.empty_append, String.toList_ofList]
    rw [text]
    exact ⟨_, Decimal.written_digits small, same.trans unsigned⟩

theorem alike_neg_neg (finite : x.isFinite = true) : Alike (- -x) x := by
  rcases unpack_of_isFinite finite with zero | ⟨s, m, e, pos, hx⟩
  · exact (Alike.of_beq zero).neg.neg.trans (Alike.of_beq zero).symm
  · have twice := unpack_neg (unpack_neg hx)
    cases s with
    | negative => exact alike_of_unpack twice hx
    | positive => exact alike_of_unpack twice hx

theorem textOf_of_neg (finite : x.isFinite = true) (h : x < 0) :
    (-x).isFinite = true ∧ ¬ -x < 0 ∧ (textOf x).toList = '-' :: (textOf (-x)).toList := by
  rcases unpack_of_isFinite finite with zero | ⟨s, m, e, pos, hx⟩
  · exact absurd (((Alike.of_beq zero).lt (.refl 0)).mp h) (by decide)
  · obtain rfl := (lt_zero_iff hx).mp h
    have opposite := unpack_neg hx
    have above : ¬ -x < 0 := fun below =>
      absurd ((lt_zero_iff opposite).mp below) Float.Model.UnpackedFloat.Sign.noConfusion
    have same : (-x).abs = x.abs := by
      change Float.ofModel (.pack (-x).toModel.unpack.abs) =
        Float.ofModel (.pack x.toModel.unpack.abs)
      rw [hx, opposite]
      rfl
    refine ⟨isFinite_of_unpack opposite, above, ?_⟩
    rw [textOf_of_unpack hx, textOf_of_unpack opposite, if_pos h, if_neg above, same]
    simp

theorem magnitude?_nonneg {cs : List Char} {y : Float} (h : magnitude? cs = some y) :
    ¬ y < 0 := by
  unfold magnitude? at h
  dsimp only at h
  split at h
  · obtain rfl := Option.some.inj h
    decide
  · split at h
    · obtain rfl := Option.some.inj h
      decide
    · obtain ⟨d, -, rfl⟩ := Option.map_eq_some_iff.mp h
      exact toFloat_nonneg d

theorem isFinite_neg (finite : x.isFinite = true) : (-x).isFinite = true := by
  rcases unpack_of_isFinite finite with zero | ⟨s, m, e, pos, hx⟩
  · exact (Alike.of_beq zero).neg.isFinite
  · exact isFinite_of_unpack (unpack_neg hx)

/-- The text of a finite number reads back as the same number. -/
theorem textOf_reads_back (finite : x.isFinite = true) :
    ∃ y, float? (textOf x).toList = some y ∧ (y == x) = true := by
  by_cases h : x < 0
  · obtain ⟨finite', above, text⟩ := textOf_of_neg finite h
    obtain ⟨d, written, same⟩ := written_textOf finite' above
    have read : Alike (-d.toFloat) x := same.neg.trans (alike_neg_neg finite)
    refine ⟨-d.toFloat, ?_, read.beq_of_isFinite finite⟩
    rw [text]
    exact congrArg (Option.map (- ·)) written.magnitude?_eq
  · obtain ⟨d, written, same⟩ := written_textOf finite h
    exact ⟨d.toFloat, written.float?_eq, same.beq_of_isFinite finite⟩

end Numeral

end ReactiveSheet
