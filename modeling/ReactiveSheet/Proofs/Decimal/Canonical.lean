import Mathlib
import ReactiveSheet.Value

/-!
Finite doubles in pieces.

`Canonical` says when a mantissa and an exponent are kept by a double as they are. Rounding leaves
such a number alone, also if it comes with more digits that are all zero; packing it into bits and
unpacking it gives it back; and what is unpacked from any bits is of this kind.
-/

namespace ReactiveSheet.Double

open Float.Model
open Float.Model.UnpackedFloat
open Float.Model.Format (binary64)

/-- A mantissa and an exponent as a finite double keeps them. -/
structure Canonical (m : Nat) (e : Int) : Prop where
  pos : 0 < m
  lt : m < 2 ^ 53
  normal : 2 ^ 52 ≤ m ∨ e = -1074
  least : -1074 ≤ e
  greatest : e ≤ 971

theorem targetExponent_binary64 (m : Nat) (e : Int) :
    binary64.targetExponent (totalExponent m e) = max (m.log2 + e - 52) (-1074) := by
  simp only [Format.targetExponent, totalExponent, Format.mantissaBits, Format.minExponent]
  norm_num
  omega

namespace Canonical

variable {m : Nat} {e : Int}

theorem log2_le (h : Canonical m e) : m.log2 ≤ 52 := by
  have := (Nat.log2_lt h.pos.ne').mpr h.lt
  omega

theorem log2_eq_or (h : Canonical m e) : m.log2 = 52 ∨ e = -1074 := by
  rcases h.normal with low | least
  · exact Or.inl (Nat.le_antisymm h.log2_le ((Nat.le_log2 h.pos.ne').mpr low))
  · exact Or.inr least

theorem targetExponent (h : Canonical m e) :
    binary64.targetExponent (totalExponent m e) = e := by
  have := h.log2_le
  have := h.least
  rw [targetExponent_binary64]
  rcases h.log2_eq_or with full | least
  · omega
  · omega

end Canonical

theorem shiftRight_exact (m k : Nat) :
    (⟨m * 2 ^ k, false, false⟩ : ExtendedMantissa) >>> k = ⟨m, false, false⟩ := by
  change k.repeat ExtendedMantissa.shiftRightOne _ = _
  induction k generalizing m with
  | zero => simp [Nat.repeat]
  | succ k ih =>
    rw [Nat.repeat, pow_succ', ← mul_assoc, ih]
    simp [ExtendedMantissa.shiftRightOne]

theorem log2_mul_two_pow {m : Nat} (h : 0 < m) (k : Nat) : (m * 2 ^ k).log2 = m.log2 + k := by
  have := Nat.two_pow_pos k
  have le : m * 2 ^ k ≠ 0 := by positivity
  rw [Nat.log2_eq_iff le, pow_add, pow_succ, pow_add]
  have lower := Nat.log2_self_le h.ne'
  have upper := Nat.lt_log2_self (n := m)
  rw [pow_succ] at upper
  constructor
  · exact Nat.mul_le_mul_right _ lower
  · calc m * 2 ^ k < 2 ^ m.log2 * 2 * 2 ^ k := Nat.mul_lt_mul_of_pos_right upper this
      _ = 2 ^ m.log2 * 2 ^ k * 2 := by ring

variable {m : Nat} {e : Int} {s : Sign}

theorem shiftToTargetExponent_exact (h : Canonical m e) (k : Nat) :
    shiftToTargetExponent binary64 (m * 2 ^ k) (e - k) .exact = (⟨m, false, false⟩, e) := by
  have target : binary64.targetExponent (totalExponent (m * 2 ^ k) (e - k)) = e := by
    have same : totalExponent (m * 2 ^ k) (e - k) = totalExponent m e := by
      simp only [totalExponent, log2_mul_two_pow h.pos]
      omega
    rw [same, h.targetExponent]
  have amount : (e - (e - k)).toNat = k := by omega
  unfold shiftToTargetExponent
  rw [target]
  simp only [shiftToExponent, amount, ExtendedMantissa.ofMantissaAndAccuracy, shiftRight_exact]
  simp

/-- A number that a double can keep is not changed by rounding. -/
theorem roundWithAccuracy_exact (h : Canonical m e) (k : Nat) :
    roundWithAccuracy binary64 s (m * 2 ^ k) (e - k) .exact = .finite s m e h.pos := by
  have again := shiftToTargetExponent_exact h 0
  simp only [pow_zero, mul_one, Nat.cast_zero, sub_zero] at again
  unfold roundWithAccuracy
  rw [shiftToTargetExponent_exact h k]
  simp only [ExtendedMantissa.roundedMantissa, ExtendedMantissa.accuracy,
    Accuracy.roundToNearestEven, again]
  rw [dif_neg h.pos.ne']

theorem toNat_append_one (b : BitVec 52) : (1#1 ++ b).toNat = 2 ^ 52 + b.toNat := by
  rw [BitVec.toNat_append, ← Nat.shiftLeft_add_eq_or_of_lt b.isLt]
  simp [Nat.shiftLeft_eq]

theorem unpack_normal {b : Nat} (mantissa : BitVec 52) (h : 0 < b) (k : b < 2047) :
    UnpackedFloat.unpack binary64 (packComponents binary64 s (BitVec.ofNat 11 b) mantissa) =
      .finite s (2 ^ 52 + mantissa.toNat) (b - 1075) (by omega) := by
  have value : (BitVec.ofNat 11 b).toNat = b := by
    rw [BitVec.toNat_ofNat, Nat.mod_eq_of_lt (by omega)]
  have top : BitVec.ofNat 11 b ≠ -1#_ := fun full => by
    have := congrArg BitVec.toNat full
    rw [value] at this
    simp at this
    omega
  have bottom : BitVec.ofNat 11 b ≠ 0#_ := fun none => by
    have := congrArg BitVec.toNat none
    rw [value] at this
    simp at this
    omega
  unfold UnpackedFloat.unpack
  simp only [unpackExponent_packComponents, unpackMantissa_packComponents,
    unpackSign_packComponents, Sign.ofBitVec_toBitVec, if_neg top, if_neg bottom,
    toNat_append_one, value]
  rfl

theorem unpack_subnormal (mantissa : BitVec 52) (h : 0 < mantissa.toNat) :
    UnpackedFloat.unpack binary64 (packComponents binary64 s 0#11 mantissa) =
      .finite s mantissa.toNat (-1074) h := by
  have some : mantissa ≠ 0#_ := fun none => by
    rw [none] at h
    exact absurd h (by decide)
  have top : (0#11) ≠ -1#_ := by decide
  unfold UnpackedFloat.unpack
  simp only [unpackExponent_packComponents, unpackMantissa_packComponents,
    unpackSign_packComponents, Sign.ofBitVec_toBitVec, if_neg top, if_true, dif_neg some]
  rfl

theorem pack_of_full (full : m.log2 = 52) (least : -1074 ≤ e) (greatest : e ≤ 971)
    (pos : 0 < m) :
    UnpackedFloat.pack binary64 (.finite s m e pos) =
      packComponents binary64 s (BitVec.ofNat 11 (e + 1075).toNat) (BitVec.ofNat 52 m) := by
  have bias : (e + binary64.exponentBias + binary64.mantissaBitsWithoutImplicit).toNat =
      (e + 1075).toNat := congrArg Int.toNat (by change e + 1023 + 52 = _; omega)
  unfold UnpackedFloat.pack
  simp only [bias]
  rw [if_neg, if_pos]
  · simp [full, Format.mantissaBits]
  · norm_num
    omega

theorem pack_of_not_full (full : m.log2 ≠ 52) (greatest : e ≤ 971)
    (pos : 0 < m) :
    UnpackedFloat.pack binary64 (.finite s m e pos) =
      packComponents binary64 s 0#11 (BitVec.ofNat 52 m) := by
  have bias : (e + binary64.exponentBias + binary64.mantissaBitsWithoutImplicit).toNat =
      (e + 1075).toNat := congrArg Int.toNat (by change e + 1023 + 52 = _; omega)
  unfold UnpackedFloat.pack
  simp only [bias]
  rw [if_neg, if_neg]
  · simp [Format.mantissaBits]
    omega
  · norm_num
    omega

/-- A double keeps what is canonical. -/
theorem unpack_pack (h : Canonical m e) :
    (Float.Model.pack (.finite s m e h.pos)).unpack = .finite s m e h.pos := by
  change UnpackedFloat.unpack binary64 (UnpackedFloat.pack binary64 (.finite s m e h.pos)) = _
  have least := h.least
  have greatest := h.greatest
  have lt := h.lt
  have pos := h.pos
  by_cases full : m.log2 = 52
  · have low : 2 ^ 52 ≤ m := full ▸ Nat.log2_self_le pos.ne'
    rw [pack_of_full full least greatest, unpack_normal _ (by omega) (by omega)]
    congr 1
    · rw [BitVec.toNat_ofNat]
      omega
    · omega
  · obtain rfl : e = -1074 := h.log2_eq_or.resolve_left full
    have small : m < 2 ^ 52 := (Nat.log2_lt pos.ne').mp (by have := h.log2_le; omega)
    have kept : (BitVec.ofNat 52 m).toNat = m := by
      rw [BitVec.toNat_ofNat, Nat.mod_eq_of_lt small]
    rw [pack_of_not_full full greatest, unpack_subnormal _ (kept.symm ▸ pos)]
    congr 1

def fraction (x : Float) : Nat := x.toBits.toNat % Nat.pow 2 52

def scale (x : Float) : Nat := x.toBits.toNat / Nat.pow 2 52 % 2048

theorem toNat_unpackMantissa (b : BitVec binary64.numBits) :
    (unpackMantissa b).toNat = b.toNat % Nat.pow 2 52 := by
  simp [unpackMantissa]

theorem toNat_unpackExponent (b : BitVec binary64.numBits) :
    (unpackExponent b).toNat = b.toNat / Nat.pow 2 52 % 2048 := by
  simp [unpackExponent, Nat.shiftRight_eq_div_pow]

theorem pieces_of_unpack {x : Float} {pos : 0 < m} (h : x.toModel.unpack = .finite s m e pos) :
    (scale x = 0 ∧ m = fraction x ∧ e = -1074) ∨
      (0 < scale x ∧ scale x < 2047 ∧ m = 2 ^ 52 + fraction x ∧ e = scale x - 1075) := by
  have mantissa := toNat_unpackMantissa x.toModel.toBits.toBitVec
  have exponent := toNat_unpackExponent x.toModel.toBits.toBitVec
  change _ = fraction x at mantissa
  change _ = scale x at exponent
  unfold Float.Model.unpack UnpackedFloat.unpack at h
  simp only at h
  split at h
  · split at h <;> exact nomatch h
  · rename_i top
    split at h
    · rename_i bottom
      split at h
      · exact nomatch h
      · obtain ⟨-, rfl, rfl⟩ := UnpackedFloat.finite.inj h
        refine Or.inl ⟨?_, mantissa, ?_⟩
        · rw [← exponent, bottom]
          rfl
        · rw [bottom]
          rfl
    · rename_i bottom
      obtain ⟨-, rfl, rfl⟩ := UnpackedFloat.finite.inj h
      have above : scale x ≠ 0 := fun zero =>
        bottom (BitVec.eq_of_toNat_eq (exponent.trans zero))
      have below : scale x ≠ 2047 := fun full =>
        top (BitVec.eq_of_toNat_eq (exponent.trans full))
      have limit : scale x < 2048 := Nat.mod_lt _ (by decide)
      refine Or.inr ⟨?_, ?_, ?_, ?_⟩
      · omega
      · omega
      · rw [← mantissa]
        exact toNat_append_one _
      · rw [← exponent]
        rfl

theorem canonical_of_unpack {x : Float} {pos : 0 < m} (h : x.toModel.unpack = .finite s m e pos) :
    Canonical m e := by
  have limit : fraction x < 2 ^ 52 := Nat.mod_lt _ (by decide)
  rcases pieces_of_unpack h with ⟨-, hm, he⟩ | ⟨above, below, hm, he⟩
  · constructor <;> omega
  · constructor <;> omega

/-- What a double is written from is its magnitude. -/
theorem ofFloat_eq {x : Float} {pos : 0 < m} (h : x.toModel.unpack = .finite s m e pos) :
    ∃ k : Nat, (Ratio.ofFloat x).den = 2 ^ k ∧
      ((Ratio.ofFloat x).num : Rat) = m * 2 ^ e * 2 ^ k := by
  have mantissa : (if scale x = 0 then fraction x else Nat.pow 2 52 + fraction x) = m := by
    rcases pieces_of_unpack h with ⟨zero, hm, -⟩ | ⟨above, -, hm, -⟩
    · rw [if_pos zero, hm]
    · rw [if_neg above.ne', hm]
      rfl
  have power : (max (scale x) 1 : Nat) = e + 1075 := by
    rcases pieces_of_unpack h with ⟨zero, -, he⟩ | ⟨above, -, -, he⟩ <;> omega
  have unfolded : Ratio.ofFloat x = if 1075 ≤ max (scale x) 1 then
      ⟨(if scale x = 0 then fraction x else Nat.pow 2 52 + fraction x) *
        Nat.pow 2 (max (scale x) 1 - 1075), 1⟩
    else ⟨if scale x = 0 then fraction x else Nat.pow 2 52 + fraction x,
      Nat.pow 2 (1075 - max (scale x) 1)⟩ := rfl
  rw [unfolded, mantissa]
  split
  · rename_i whole
    refine ⟨0, rfl, ?_⟩
    obtain ⟨n, rfl⟩ : ∃ n : Nat, e = n := ⟨e.toNat, by omega⟩
    have : max (scale x) 1 - 1075 = n := by omega
    rw [this]
    push_cast
    simp
  · rename_i part
    obtain ⟨n, rfl⟩ : ∃ n : Nat, e = -n := ⟨(-e).toNat, by omega⟩
    have : 1075 - max (scale x) 1 = n := by omega
    rw [this]
    refine ⟨n, rfl, ?_⟩
    rw [mul_assoc, ← zpow_natCast, ← zpow_add₀ (by norm_num)]
    simp

end ReactiveSheet.Double
