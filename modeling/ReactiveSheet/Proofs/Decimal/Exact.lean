import ReactiveSheet.Proofs.Decimal.Canonical

/-!
Decimals that are doubles.

Numbers are compared as rationals. If the exact quotient or product of two numbers is canonical,
division and multiplication give it, since there is nothing to round; so a decimal that is the same
number as a double is read as that double, whichever way the reader takes. Whatever decimal is read,
the result is not below zero.
-/

namespace ReactiveSheet.Double

open Float.Model
open Float.Model.UnpackedFloat
open Float.Model.Format (binary64)

variable {m m₁ m₂ : Nat} {e e₁ e₂ : Int} {s : Sign}

theorem two_zpow_pos (e : Int) : (0 : Rat) < 2 ^ e := zpow_pos (by norm_num) e

theorem mantissa_eq (same : (m₁ : Rat) * 2 ^ e₁ = m * 2 ^ e) (le : e₁ ≤ e) :
    m₁ = m * 2 ^ (e - e₁).toNat := by
  have split : (2 : Rat) ^ e = 2 ^ (e - e₁).toNat * 2 ^ e₁ := by
    rw [← zpow_natCast, ← zpow_add₀ (by norm_num)]
    congr 1
    omega
  rw [split, ← mul_assoc] at same
  exact_mod_cast mul_right_cancel₀ (two_zpow_pos e₁).ne' same

/-- Rounding what is written with a smaller exponent than it is kept with. -/
theorem roundWithAccuracy_of_eq (h : Canonical m e) (same : (m₁ : Rat) * 2 ^ e₁ = m * 2 ^ e)
    (le : e₁ ≤ e) : roundWithAccuracy binary64 s m₁ e₁ .exact = .finite s m e h.pos := by
  have exponent : e₁ = e - (e - e₁).toNat := by omega
  rw [mantissa_eq same le, exponent]
  convert roundWithAccuracy_exact h (e - e₁).toNat using 2
  congr 2
  omega

theorem log2_bounds (h : 0 < m) (e : Int) :
    (2 : Rat) ^ (m.log2 + e) ≤ m * 2 ^ e ∧ (m : Rat) * 2 ^ e < 2 ^ (m.log2 + 1 + e) := by
  have low : (2 : Rat) ^ m.log2 ≤ m := by exact_mod_cast Nat.log2_self_le h.ne'
  have high : (m : Rat) < 2 ^ (m.log2 + 1) := by exact_mod_cast Nat.lt_log2_self
  rw [zpow_add₀ (by norm_num), zpow_add₀ (by norm_num)]
  constructor
  · exact mul_le_mul_of_nonneg_right (by exact_mod_cast low) (two_zpow_pos e).le
  · exact mul_lt_mul_of_pos_right (by exact_mod_cast high) (two_zpow_pos e)

theorem lt_of_zpow_lt {a b : Int} (h : (2 : Rat) ^ a < 2 ^ b) : a < b :=
  (zpow_lt_zpow_iff_right₀ (by norm_num)).mp h

theorem div_exact {s₁ s₂ : Sign} {h₁ : 0 < m₁} {h₂ : 0 < m₂} (h : Canonical m e)
    (same : (m₁ : Rat) * 2 ^ e₁ = m * 2 ^ e * (m₂ * 2 ^ e₂)) :
    UnpackedFloat.div binary64 (.finite s₁ m₁ e₁ h₁) (.finite s₂ m₂ e₂ h₂) =
      .finite (s₁ / s₂) m e h.pos := by
  have room : m₁.log2 + e₁ < m.log2 + 1 + e + (m₂.log2 + 1 + e₂) := by
    apply lt_of_zpow_lt
    calc (2 : Rat) ^ (m₁.log2 + e₁) ≤ m₁ * 2 ^ e₁ := (log2_bounds h₁ e₁).1
      _ = m * 2 ^ e * (m₂ * 2 ^ e₂) := same
      _ < 2 ^ (m.log2 + 1 + e) * 2 ^ (m₂.log2 + 1 + e₂) :=
        mul_lt_mul'' (log2_bounds h.pos e).2 (log2_bounds h₂ e₂).2
          (mul_nonneg (Nat.cast_nonneg _) (two_zpow_pos e).le)
          (mul_nonneg (Nat.cast_nonneg _) (two_zpow_pos e₂).le)
      _ = 2 ^ (m.log2 + 1 + e + (m₂.log2 + 1 + e₂)) := (zpow_add₀ (by norm_num) _ _).symm
  simp only [UnpackedFloat.div, divCore]
  -- The division is done at an exponent not above that of the result, so it leaves no rest.
  have low : min (e₁ - e₂)
      (binary64.targetExponent (totalExponent m₁ e₁ - totalExponent m₂ e₂)) ≤ e := by
    have := h.log2_le
    have := h.least
    simp only [Format.targetExponent, totalExponent, Format.mantissaBits, Format.minExponent]
    norm_num
    omega
  have high := min_le_left (e₁ - e₂)
    (binary64.targetExponent (totalExponent m₁ e₁ - totalExponent m₂ e₂))
  generalize min (e₁ - e₂) (binary64.targetExponent _) = t at low high ⊢
  have shifted : m₁ <<< (e₁ - e₂ - t).toNat = m * 2 ^ (e - t).toNat * m₂ := by
    rw [Nat.shiftLeft_eq]
    have lifted : (m₁ : Rat) * 2 ^ (e₁ - e₂ - t) = m * 2 ^ (e - t) * m₂ := by
      rw [sub_sub, zpow_sub₀ (by norm_num), zpow_sub₀ (by norm_num), zpow_add₀ (by norm_num)]
      have := (two_zpow_pos e₂).ne'
      have := (two_zpow_pos t).ne'
      field_simp
      linarith
    obtain ⟨i, hi⟩ : ∃ i : Nat, e₁ - e₂ - t = i := ⟨_, (Int.toNat_of_nonneg (by omega)).symm⟩
    obtain ⟨j, hj⟩ : ∃ j : Nat, e - t = j := ⟨_, (Int.toNat_of_nonneg (by omega)).symm⟩
    rw [hi, hj, zpow_natCast, zpow_natCast] at lifted
    rw [hi, hj, Int.toNat_natCast, Int.toNat_natCast]
    exact_mod_cast lifted
  rw [shifted, Nat.mul_div_cancel _ h₂, Nat.mul_mod_left]
  have exponent : t = e - (e - t).toNat := by omega
  have rounded := roundWithAccuracy_exact (s := s₁ / s₂) h (e - t).toNat
  rw [← exponent] at rounded
  exact rounded

theorem mul_exact {s₁ s₂ : Sign} {h₁ : 0 < m₁} {h₂ : 0 < m₂} (h : Canonical m e)
    (same : (m₁ : Rat) * 2 ^ e₁ * (m₂ * 2 ^ e₂) = m * 2 ^ e) (le : e₁ + e₂ ≤ e) :
    UnpackedFloat.mul binary64 (.finite s₁ m₁ e₁ h₁) (.finite s₂ m₂ e₂ h₂) =
      .finite (s₁ * s₂) m e h.pos := by
  refine roundWithAccuracy_of_eq h ?_ le
  rw [← same, zpow_add₀ (by norm_num)]
  push_cast
  ring

/-- A double that is `r`, which is positive. -/
def Keeps (x : Float) (r : Rat) : Prop :=
  ∃ m e, ∃ pos : 0 < m, x.toModel.unpack = .finite .positive m e pos ∧ (m : Rat) * 2 ^ e = r

/-- A small number is canonical once its mantissa is filled up with zeros. -/
theorem canonical_filled {n : Nat} (h : 0 < n) (k : n < 2 ^ 53) :
    Canonical (n * 2 ^ (52 - n.log2)) ((n.log2 : Int) - 52) := by
  have log2 : n.log2 ≤ 52 := by
    have := (Nat.log2_lt h.ne').mpr k
    omega
  have full : (n * 2 ^ (52 - n.log2)).log2 = 52 := by
    rw [log2_mul_two_pow h]
    omega
  have pos : 0 < n * 2 ^ (52 - n.log2) := by positivity
  constructor
  case pos => exact pos
  case lt => exact (Nat.log2_lt pos.ne').mp (by omega)
  case normal => exact Or.inl ((Nat.le_log2 pos.ne').mp full.ge)
  case least => omega
  case greatest => omega

theorem filled_eq {n : Nat} (h : 0 < n) (k : n < 2 ^ 53) :
    ((n * 2 ^ (52 - n.log2) : Nat) : Rat) * 2 ^ ((n.log2 : Int) - 52) = n := by
  have log2 := (Nat.log2_lt h.ne').mpr k
  push_cast
  rw [mul_assoc, ← zpow_natCast, ← zpow_add₀ (by norm_num)]
  have : ((52 - n.log2 : Nat) : Int) + (n.log2 - 52) = 0 := by omega
  rw [this]
  simp

theorem round_natural {n : Nat} (h : 0 < n) (k : n < 2 ^ 53) :
    UnpackedFloat.round binary64 .positive n 0 =
      .finite .positive (n * 2 ^ (52 - n.log2)) (n.log2 - 52) (canonical_filled h k).pos := by
  have log2 : n.log2 ≤ 52 := by
    have := (Nat.log2_lt h.ne').mpr k
    omega
  have target : binary64.targetExponent (totalExponent n 0) = n.log2 - 52 := by
    rw [targetExponent_binary64]
    omega
  have amount : (0 - ((n.log2 : Int) - 52)).toNat = 52 - n.log2 := by omega
  have exponent : (0 : Int) - (52 - n.log2 : Nat) = n.log2 - 52 := by omega
  have kept := roundWithAccuracy_exact (s := .positive) (canonical_filled h k) 0
  simp only [pow_zero, mul_one, Nat.cast_zero, sub_zero] at kept
  rw [UnpackedFloat.round, decreaseExponent]
  simp only [target, amount, exponent, Nat.shiftLeft_eq, kept]

theorem keeps_toFloat {n : Nat} (h : 0 < n) (k : n < 2 ^ 53) : Keeps n.toUInt64.toFloat n := by
  have whole : n.toUInt64.toNat = n := by
    simp
    omega
  refine ⟨_, n.log2 - 52, (canonical_filled h k).pos, ?_, ?_⟩
  · change (Float.Model.pack (UnpackedFloat.ofUInt64 binary64 n.toUInt64)).unpack = _
    unfold UnpackedFloat.ofUInt64 UnpackedFloat.ofNat UnpackedFloat.ofInt UnpackedFloat.normalize
    rw [whole, Int.compare_eq_gt.mpr (by omega)]
    simp only [Int.toNat_natCast, round_natural h k]
    exact unpack_pack (canonical_filled h k)
  · exact filled_eq h k

theorem unpack_of_pos {x : Float} (finite : x.isFinite = true) (pos : 0 < x) :
    ∃ m e, ∃ h : 0 < m, x.toModel.unpack = .finite .positive m e h := by
  change x.toModel.unpack.isFinite = true at finite
  replace pos : UnpackedFloat.lt (0 : Float).toModel.unpack x.toModel.unpack = true :=
    of_decide_eq_true pos
  have zero : (0 : Float).toModel.unpack = .zero .positive := rfl
  rw [zero] at pos
  cases hu : x.toModel.unpack with
  | infinity s => rw [hu] at finite; exact absurd finite Bool.noConfusion
  | notANumber => rw [hu] at finite; exact absurd finite Bool.noConfusion
  | zero s => rw [hu] at pos; exact absurd pos Bool.noConfusion
  | finite s m e h =>
    cases s with
    | negative => rw [hu] at pos; exact absurd pos Bool.noConfusion
    | positive => exact ⟨m, e, h, rfl⟩

theorem keeps_of_pos {x : Float} (finite : x.isFinite = true) (pos : 0 < x) {n : Nat}
    (h : (Ratio.ofFloat x).num = n * (Ratio.ofFloat x).den) : Keeps x n := by
  obtain ⟨m, e, pos, hu⟩ := unpack_of_pos finite pos
  obtain ⟨k, den, num⟩ := ofFloat_eq hu
  refine ⟨m, e, pos, hu, ?_⟩
  rw [h, den] at num
  push_cast at num
  exact (mul_right_cancel₀ (pow_pos (by norm_num) k).ne' num).symm

theorem keeps_powerOfTen (k : Fin 23) :
    Keeps Float.exactlyRepresentablePowersOfTen[k] (10 ^ k.val) := by
  have checked : ∀ k : Fin 23, Float.exactlyRepresentablePowersOfTen[k].isFinite = true ∧
      0 < Float.exactlyRepresentablePowersOfTen[k] ∧
      (Ratio.ofFloat Float.exactlyRepresentablePowersOfTen[k]).num =
        10 ^ k.val * (Ratio.ofFloat Float.exactlyRepresentablePowersOfTen[k]).den := by
    decide +kernel
  obtain ⟨finite, pos, h⟩ := checked k
  exact_mod_cast keeps_of_pos finite pos h

theorem Canonical.log2_eq_of_one_le (h : Canonical m e) (one : (1 : Rat) ≤ m * 2 ^ e) :
    m.log2 = 52 := by
  have above : (0 : Int) < m.log2 + 1 + e := by
    apply lt_of_zpow_lt
    rw [zpow_zero]
    exact one.trans_lt (log2_bounds h.pos e).2
  have := h.log2_le
  exact h.log2_eq_or.resolve_right (by omega)

theorem one_le_of_pos {n : Nat} (h : 0 < n) : (1 : Rat) ≤ n := by exact_mod_cast h

theorem one_le_ten_pow (k : Nat) : (1 : Rat) ≤ 10 ^ k := one_le_pow₀ (by norm_num)

theorem two_pow_le_ten_pow (k : Nat) : (2 : Rat) ^ (k : Int) ≤ 10 ^ k := by
  rw [zpow_natCast]
  exact pow_le_pow_left₀ (by norm_num) (by norm_num) k

theorem unpack_div {x y : Float} {q r : Rat} (hx : Keeps x q) (hy : Keeps y r)
    (h : Canonical m e) (same : q = m * 2 ^ e * r) :
    (x / y).toModel.unpack = .finite .positive m e h.pos := by
  obtain ⟨m₁, e₁, pos₁, hx, rfl⟩ := hx
  obtain ⟨m₂, e₂, pos₂, hy, rfl⟩ := hy
  change (Float.Model.pack
    (UnpackedFloat.div binary64 x.toModel.unpack y.toModel.unpack)).unpack = _
  rw [hx, hy, div_exact h same]
  exact unpack_pack h

theorem unpack_mul {x y : Float} {q r : Rat} (hx : Keeps x q) (hy : Keeps y r)
    (h : Canonical m e) (same : q * r = m * 2 ^ e) (hq : 1 ≤ q) (hr : 1 ≤ r) :
    (x * y).toModel.unpack = .finite .positive m e h.pos := by
  obtain ⟨m₁, e₁, pos₁, hx, rfl⟩ := hx
  obtain ⟨m₂, e₂, pos₂, hy, rfl⟩ := hy
  have room : (m₁.log2 + e₁) + (m₂.log2 + e₂) < m.log2 + 1 + e := by
    apply lt_of_zpow_lt
    calc (2 : Rat) ^ ((m₁.log2 + e₁) + (m₂.log2 + e₂))
        = 2 ^ (m₁.log2 + e₁) * 2 ^ (m₂.log2 + e₂) := zpow_add₀ (by norm_num) _ _
      _ ≤ (m₁ * 2 ^ e₁) * (m₂ * 2 ^ e₂) :=
        mul_le_mul (log2_bounds pos₁ e₁).1 (log2_bounds pos₂ e₂).1 (two_zpow_pos _).le
          (zero_le_one.trans hq)
      _ = m * 2 ^ e := same
      _ < 2 ^ (m.log2 + 1 + e) := (log2_bounds h.pos e).2
  have full₁ := (canonical_of_unpack hx).log2_eq_of_one_le hq
  have full₂ := (canonical_of_unpack hy).log2_eq_of_one_le hr
  have := h.log2_le
  change (Float.Model.pack
    (UnpackedFloat.mul binary64 x.toModel.unpack y.toModel.unpack)).unpack = _
  rw [hx, hy, mul_exact h same (by omega)]
  exact unpack_pack h

theorem unpack_ofScientific_div {n k : Nat} (h : Canonical m e) (pos : 0 < k)
    (same : (n : Rat) = m * 2 ^ e * 10 ^ k) :
    (Float.ofScientific n true k).toModel.unpack = .finite .positive m e h.pos := by
  have nonzero : 0 < n := by
    have mantissa : (0 : Rat) < m := by exact_mod_cast h.pos
    have : (0 : Rat) < n := by
      rw [same]
      exact mul_pos (mul_pos mantissa (two_zpow_pos e)) (by positivity)
    exact_mod_cast this
  have room : m.log2 + e + k < n.log2 + 1 + 0 := by
    apply lt_of_zpow_lt
    calc (2 : Rat) ^ (m.log2 + e + k) = 2 ^ (m.log2 + e) * 2 ^ (k : Int) :=
          zpow_add₀ (by norm_num) _ _
      _ ≤ m * 2 ^ e * 10 ^ k :=
        mul_le_mul (log2_bounds h.pos e).1 (two_pow_le_ten_pow k) (two_zpow_pos _).le
          (mul_nonneg (Nat.cast_nonneg m) (two_zpow_pos e).le)
      _ = n * 2 ^ (0 : Int) := by rw [← same, zpow_zero, mul_one]
      _ < 2 ^ (n.log2 + 1 + 0 : Int) := (log2_bounds nonzero 0).2
  have least := h.least
  unfold Float.ofScientific
  split
  · rename_i small
    have power := keeps_powerOfTen ⟨k, by omega⟩
    exact unpack_div (keeps_toFloat nonzero small.1) power h same
  · change (Float.Model.pack (UnpackedFloat.ofScientific binary64 n (Int.negOfNat k))).unpack = _
    have negative : Int.negOfNat k = -(k : Int) := Int.negOfNat_eq
    unfold UnpackedFloat.ofScientific
    rw [negative, dif_neg nonzero.ne', if_neg, if_neg, if_neg]
    · rw [div_exact h]
      · exact unpack_pack h
      · simpa using same
    · omega
    · change ¬ -(k : Int) < -(2048 + (n.log2 : Int))
      omega
    · change ¬ -(k : Int) > 2048
      omega

theorem unpack_ofScientific_mul {n k : Nat} (h : Canonical m e) (pos : 0 < n)
    (same : (n : Rat) * 10 ^ k = m * 2 ^ e) :
    (Float.ofScientific n false k).toModel.unpack = .finite .positive m e h.pos := by
  have one : (1 : Rat) ≤ m * 2 ^ e := by
    rw [← same]
    exact one_le_mul_of_one_le_of_one_le (one_le_of_pos pos) (one_le_ten_pow k)
  have full := h.log2_eq_of_one_le one
  have room : n.log2 + 0 + k < m.log2 + 1 + e := by
    apply lt_of_zpow_lt
    calc (2 : Rat) ^ (n.log2 + 0 + k : Int) = 2 ^ (n.log2 + 0 : Int) * 2 ^ (k : Int) :=
          zpow_add₀ (by norm_num) _ _
      _ ≤ n * 2 ^ (0 : Int) * 10 ^ k :=
        mul_le_mul (log2_bounds pos 0).1 (two_pow_le_ten_pow k) (two_zpow_pos _).le (by positivity)
      _ = m * 2 ^ e := by rw [← same, zpow_zero, mul_one]
      _ < 2 ^ (m.log2 + 1 + e) := (log2_bounds h.pos e).2
  have greatest := h.greatest
  unfold Float.ofScientific
  split
  · rename_i small
    have power := keeps_powerOfTen ⟨k, by omega⟩
    exact unpack_mul (keeps_toFloat pos small.1) power h same (one_le_of_pos pos)
      (one_le_ten_pow k)
  · change (Float.Model.pack (UnpackedFloat.ofScientific binary64 n (Int.ofNat k))).unpack = _
    unfold UnpackedFloat.ofScientific
    rw [dif_neg pos.ne', if_neg, if_neg, if_pos]
    · rw [mul_exact h]
      · exact unpack_pack h
      · have shifted : ((n <<< 53 : Nat) : Rat) * 2 ^ (-53 : Int) = n := by
          rw [Nat.shiftLeft_eq, zpow_neg]
          push_cast
          exact mul_inv_cancel_right₀ (by norm_num) _
        change ((n <<< 53 : Nat) : Rat) * 2 ^ (-53 : Int) * _ = _
        rw [shifted, ← same]
        simp
      · change -(53 : Int) + 0 ≤ e
        omega
    · exact Int.natCast_nonneg k
    · change ¬ (k : Int) < -(2048 + (n.log2 : Int))
      omega
    · change ¬ (k : Int) > 2048
      omega

/-- A decimal that is a double is read as that double. -/
theorem unpack_toFloat {d : Decimal} (h : Canonical m e)
    (same : (d.mantissa : Rat) * 10 ^ d.exponent = m * 2 ^ e) :
    d.toFloat.toModel.unpack = .finite .positive m e h.pos := by
  obtain ⟨n, power⟩ := d
  unfold Decimal.toFloat
  dsimp only at same ⊢
  by_cases negative : power < 0
  · obtain ⟨k, rfl⟩ : ∃ k : Nat, power = -k := ⟨(-power).toNat, by omega⟩
    rw [decide_eq_true negative, Int.natAbs_neg, Int.natAbs_natCast]
    apply unpack_ofScientific_div h (by omega)
    rw [← same, zpow_neg, zpow_natCast, inv_mul_cancel_right₀ (by positivity)]
  · obtain ⟨k, rfl⟩ : ∃ k : Nat, power = k := ⟨power.toNat, by omega⟩
    rw [decide_eq_false negative, Int.natAbs_natCast]
    rw [zpow_natCast] at same
    refine unpack_ofScientific_mul h (Nat.pos_of_ne_zero fun zero => ?_) same
    have mantissa : (0 : Rat) < m := by exact_mod_cast h.pos
    have := mul_pos mantissa (two_zpow_pos e)
    rw [← same, zero] at this
    simp at this

/-- No number below zero. -/
def Unsigned (u : UnpackedFloat) : Prop := u.lt (.zero .positive) = false

theorem unsigned_iff {x : Float} : Unsigned x.toModel.unpack ↔ ¬ x < 0 := by
  have lt : x < 0 ↔ x.toModel.unpack.lt (.zero .positive) = true := decide_eq_true_iff
  rw [lt, Unsigned, Bool.not_eq_true]

theorem unsigned_unpack (exponent : BitVec 11) (mantissa : BitVec 52) :
    Unsigned (UnpackedFloat.unpack binary64
      (packComponents binary64 .positive exponent mantissa)) := by
  unfold UnpackedFloat.unpack
  simp only [unpackSign_packComponents, Sign.ofBitVec_toBitVec]
  split
  · split <;> rfl
  · split
    · split <;> rfl
    · rfl

theorem unsigned_pack {u : UnpackedFloat} (h : Unsigned u) :
    Unsigned (Float.Model.pack u).unpack := by
  change Unsigned (UnpackedFloat.unpack binary64 (UnpackedFloat.pack binary64 u))
  cases u with
  | notANumber => exact unsigned_unpack _ _
  | infinity s =>
    cases s with
    | negative => exact absurd h Bool.noConfusion
    | positive => exact unsigned_unpack _ _
  | zero s => cases s <;> rfl
  | finite s m e pos =>
    cases s with
    | negative => exact absurd h Bool.noConfusion
    | positive =>
      unfold UnpackedFloat.pack
      simp only
      split
      · exact unsigned_unpack _ _
      · split <;> exact unsigned_unpack _ _

theorem unsigned_round (spec : Format) (m : Nat) (e : Int) (a : Accuracy) :
    Unsigned (roundWithAccuracy spec .positive m e a) := by
  unfold roundWithAccuracy
  simp only
  split <;> rfl

theorem unsigned_ofScientific (n : Nat) (e : Int) :
    Unsigned (UnpackedFloat.ofScientific binary64 n e) := by
  unfold UnpackedFloat.ofScientific
  split
  · rfl
  · split
    · rfl
    · split
      · rfl
      · split
        · exact unsigned_round _ _ _ _
        · exact unsigned_round _ _ _ _

theorem quotient_nonneg {x y : Float} {q r : Rat}
    (hx : x.toModel.unpack = .zero .positive ∨ Keeps x q) (hy : Keeps y r) : ¬ x / y < 0 := by
  obtain ⟨m₂, e₂, pos₂, hy, -⟩ := hy
  apply unsigned_iff.mp
  apply unsigned_pack
  rw [hy]
  rcases hx with hx | ⟨m₁, e₁, pos₁, hx, -⟩
  · rw [hx]
    rfl
  · rw [hx]
    exact unsigned_round _ _ _ _

theorem product_nonneg {x y : Float} {q r : Rat}
    (hx : x.toModel.unpack = .zero .positive ∨ Keeps x q) (hy : Keeps y r) : ¬ x * y < 0 := by
  obtain ⟨m₂, e₂, pos₂, hy, -⟩ := hy
  apply unsigned_iff.mp
  apply unsigned_pack
  rw [hy]
  rcases hx with hx | ⟨m₁, e₁, pos₁, hx, -⟩
  · rw [hx]
    rfl
  · rw [hx]
    exact unsigned_round _ _ _ _

theorem zero_or_keeps_toFloat {n : Nat} (h : n < 2 ^ 53) :
    n.toUInt64.toFloat.toModel.unpack = .zero .positive ∨ Keeps n.toUInt64.toFloat n := by
  rcases n.eq_zero_or_pos with rfl | pos
  · exact Or.inl rfl
  · exact Or.inr (keeps_toFloat pos h)

theorem toFloat_nonneg (d : Decimal) : ¬ d.toFloat < 0 := by
  unfold Decimal.toFloat Float.ofScientific
  split
  · rename_i small
    have whole := zero_or_keeps_toFloat small.1
    have power := keeps_powerOfTen ⟨d.exponent.natAbs, by omega⟩
    dsimp only
    split
    · exact quotient_nonneg whole power
    · exact product_nonneg whole power
  · exact unsigned_iff.mp (unsigned_pack (unsigned_ofScientific _ _))

end ReactiveSheet.Double
