import ReactiveSheet.Proofs.Decimal.ReadBack

/-!
Whole numbers in writing.

A whole number below `10 ^ 15` is written with the digits of its integer. The multiples of powers of
ten that are tried before are integers that doubles keep, so that none of them reads back as the
number unless it is the number; and without places after the point the number itself is tried. So
the text of a number does not depend on whether integers are written by themselves.

Texts tell finite numbers apart, since the number can be read back from its text.
-/

namespace ReactiveSheet

theorem findSome?_range_eq {α : Type} {f : Nat → Option α} {a : α} {i n : Nat} (lt : i < n)
    (found : f i ≠ none) (only : ∀ j ≤ i, ∀ b, f j = some b → b = a) :
    (List.range n).findSome? f = some a := by
  have early : (List.range (i + 1)).findSome? f = some a := by
    cases first : (List.range (i + 1)).findSome? f with
    | none =>
      have all := List.findSome?_eq_none_iff.mp first
      exact absurd (all i (List.mem_range.mpr (Nat.lt_succ_self i))) found
    | some b =>
      obtain ⟨j, hj, hb⟩ := List.exists_of_findSome?_eq_some first
      rw [only j (Nat.le_of_lt_succ (List.mem_range.mp hj)) b hb]
  obtain ⟨k, rfl⟩ := Nat.exists_eq_add_of_le lt
  rw [List.range_add, List.findSome?_append, early, Option.some_or]

namespace Double

variable {x y : Float} {q r : Rat} {n v : Nat}

theorem Keeps.eq_of_beq (hx : Keeps x q) (hy : Keeps y r) (h : (x == y) = true) : q = r := by
  obtain ⟨m₁, e₁, pos₁, hx, rfl⟩ := hx
  obtain ⟨m₂, e₂, pos₂, hy, rfl⟩ := hy
  have same : Numeral.Agree x.toModel.unpack y.toModel.unpack := Numeral.Alike.of_beq h
  rw [hx, hy] at same
  cases same with
  | same => rfl

theorem Keeps.pos (h : Keeps x q) : 0 < q := by
  obtain ⟨m, e, pos, -, rfl⟩ := h
  exact mul_pos (by exact_mod_cast pos) (two_zpow_pos e)

theorem keeps_natural (pos : 0 < v) (small : v < 2 ^ 53) : Keeps (⟨v, 0⟩ : Decimal).toFloat v := by
  refine ⟨_, _, _, unpack_toFloat (canonical_filled pos small) ?_, filled_eq pos small⟩
  rw [filled_eq pos small, zpow_zero, mul_one]

/-- Among the natural numbers with few enough digits, only the number itself is read as it. -/
theorem toFloat_beq_iff (keeps : Keeps x n) (small : v < 2 ^ 53) :
    ((⟨v, 0⟩ : Decimal).toFloat == x) = true ↔ v = n := by
  constructor
  · intro h
    rcases Nat.eq_zero_or_pos v with rfl | pos
    · obtain ⟨m, e, pos, hx, -⟩ := keeps
      have same : Numeral.Agree (.zero .positive) x.toModel.unpack := Numeral.Alike.of_beq h
      rw [hx] at same
      cases same
    · exact_mod_cast (keeps_natural pos small).eq_of_beq keeps h
  · rintro rfl
    obtain ⟨m, e, pos, hx, value⟩ := keeps
    have read := unpack_toFloat (d := ⟨v, 0⟩) (canonical_of_unpack hx)
      (by rw [zpow_zero, mul_one, value])
    exact (alike_of_unpack read hx).beq_of_isFinite (isFinite_of_unpack hx)

section Neighbours

variable {r : Ratio} {k : Nat} {d : Decimal}

theorem mem_neighbours {power : Int} : d ∈ r.neighbours power ↔
    d = ⟨r.num * Nat.pow 10 (-power).toNat / (r.den * Nat.pow 10 power.toNat), power⟩ ∨
    d = ⟨r.num * Nat.pow 10 (-power).toNat / (r.den * Nat.pow 10 power.toNat) + 1, power⟩ := by
  unfold Ratio.neighbours
  dsimp only
  split
  · simp
  · simp [or_comm]

theorem exists_of_mem_neighbours (den : 0 < r.den) (whole : r.num = n * r.den)
    (h : d ∈ (r.neighbours k).map Decimal.positional) :
    ∃ v, d = ⟨v, 0⟩ ∧ v ≤ n + Nat.pow 10 k := by
  have none : (-(k : Int)).toNat = 0 := by omega
  have quotient : r.num * Nat.pow 10 (-(k : Int)).toNat / (r.den * Nat.pow 10 (k : Int).toNat) =
      n / Nat.pow 10 k := by
    have unit : Nat.pow 10 0 = 1 := rfl
    rw [none, whole, Int.toNat_natCast, unit, Nat.mul_one, Nat.mul_comm n]
    exact Nat.mul_div_mul_left n _ den
  have full (v : Nat) : Decimal.positional ⟨v, k⟩ = ⟨v * Nat.pow 10 k, 0⟩ :=
    if_pos (Int.natCast_nonneg k)
  have below := Nat.div_mul_le_self n (Nat.pow 10 k)
  obtain ⟨candidate, mem, rfl⟩ := List.mem_map.mp h
  rw [mem_neighbours, quotient] at mem
  rcases mem with rfl | rfl
  · exact ⟨_, full _, by omega⟩
  · exact ⟨_, full _, by rw [Nat.succ_mul]; omega⟩

theorem mem_neighbours_zero (den : 0 < r.den) (whole : r.num = n * r.den) :
    ⟨n, 0⟩ ∈ (r.neighbours 0).map Decimal.positional := by
  refine List.mem_map.mpr ⟨⟨n, 0⟩, mem_neighbours.mpr (Or.inl ?_), ?_⟩
  · have quotient : n * r.den * 1 / (r.den * 1) = n := by
      rw [Nat.mul_one, Nat.mul_one, Nat.mul_div_cancel n den]
    rw [whole]
    exact congrArg (Decimal.mk · 0) quotient.symm
  · exact congrArg (Decimal.mk · 0) (Nat.mul_one n)

theorem exists_length_toDigits {limit : Nat} (zeros : Nat) (pos : 0 < n) (some : 0 < zeros)
    (small : n < Nat.pow 10 limit) :
    ∃ count ≤ limit, (Nat.toDigits 10 (n * Nat.pow 10 zeros)).length = count + zeros := by
  have least : zeros < (Nat.toDigits 10 (n * Nat.pow 10 zeros)).length := by
    rw [← Nat.not_le, Nat.length_toDigits_le_iff (by decide) some, Nat.not_lt]
    exact Nat.le_mul_of_pos_left _ pos
  have greatest : (Nat.toDigits 10 (n * Nat.pow 10 zeros)).length ≤ limit + zeros := by
    rw [Nat.length_toDigits_le_iff (by decide) (by omega), Nat.pow_add]
    exact Nat.mul_lt_mul_of_pos_right small (Nat.pow_pos (by decide))
  exact ⟨(Nat.toDigits 10 (n * Nat.pow 10 zeros)).length - zeros, by omega, by omega⟩

theorem topPower_eq {limit : Nat} (den : 0 < r.den) (whole : r.num = n * r.den) (pos : 0 < n)
    (small : n < Nat.pow 10 limit) : ∃ top : Nat, r.topPower = top ∧ top ≤ limit := by
  have numeral : (340 : Int) = (340 : Nat) := rfl
  rw [Ratio.topPower, numeral]
  generalize hzeros : (340 : Nat) = zeros
  have value : r.num * Nat.pow 10 zeros / r.den = n * Nat.pow 10 zeros := by
    rw [whole, Nat.mul_right_comm, Nat.mul_div_cancel _ den]
  obtain ⟨count, le, length⟩ := exists_length_toDigits zeros pos (by omega) small
  refine ⟨count, ?_, le⟩
  rw [value, length]
  omega

end Neighbours

/-- A whole number below `10 ^ 15` is written with its own digits. -/
theorem shortest_of_whole (finite : x.isFinite = true) (above : 0 < x)
    (whole : (Ratio.ofFloat x).num = n * (Ratio.ofFloat x).den) (small : n < Nat.pow 10 15) :
    Decimal.shortest x = ⟨n, 0⟩ := by
  have keeps := keeps_of_pos finite above whole
  have den : 0 < (Ratio.ofFloat x).den := by
    obtain ⟨m, e, _, hx⟩ := unpack_of_pos finite above
    obtain ⟨k, den, -⟩ := ofFloat_eq hx
    exact den ▸ Nat.two_pow_pos k
  have room : Nat.pow 10 15 + Nat.pow 10 15 < 2 ^ 53 := by decide
  obtain ⟨top, htop, le⟩ := topPower_eq den whole (by exact_mod_cast keeps.pos) small
  have found : (((Ratio.ofFloat x).neighbours 0).map Decimal.positional).find?
      (fun d => d.toFloat == x) ≠ none := by
    have read : ((⟨n, 0⟩ : Decimal).toFloat == x) = true :=
      (toFloat_beq_iff keeps (by omega)).mpr rfl
    rw [← Option.isSome_iff_ne_none, List.find?_isSome]
    exact ⟨_, mem_neighbours_zero den whole, read⟩
  -- A multiple with at most fifteen zeros is still an integer that a double keeps.
  have only (k : Nat) (hk : k ≤ 15) (d : Decimal)
      (h : (((Ratio.ofFloat x).neighbours k).map Decimal.positional).find?
        (fun d => d.toFloat == x) = some d) : d = ⟨n, 0⟩ := by
    obtain ⟨v, rfl, near⟩ := exists_of_mem_neighbours den whole (List.mem_of_find?_eq_some h)
    have read := List.find?_some h
    have bound : Nat.pow 10 k ≤ Nat.pow 10 15 := Nat.pow_le_pow_right (by decide) hk
    rw [(toFloat_beq_iff keeps (by omega)).mp read]
  unfold Decimal.shortest
  dsimp only
  rw [htop, findSome?_range_eq (a := ⟨n, 0⟩) (i := top) (by omega)]
  · rfl
  · rwa [Int.sub_self]
  · intro i hi d hd
    obtain ⟨k, rfl⟩ := Nat.exists_eq_add_of_le hi
    have power : ((i + k : Nat) : Int) - i = k := by omega
    rw [power] at hd
    exact only k (by omega) d hd

end Double

theorem Decimal.digits_whole (n : Nat) : (⟨n, 0⟩ : Decimal).digits = Nat.toDigits 10 n := by
  have some : 0 < (Nat.toDigits 10 n).length := Nat.length_toDigits_pos
  have all : (Nat.toDigits 10 n).leftpad 1 '0' = Nat.toDigits 10 n := by
    rw [List.leftpad, Nat.sub_eq_zero_of_le some, List.replicate_zero, List.nil_append]
  have positional := positional_mantissa (d := ⟨n, 0⟩) (Int.le_refl 0)
  unfold digits
  dsimp only
  rw [positional]
  exact all

namespace Numeral

open Double

variable {x y : Float}

def whole? (x : Float) : Option Int :=
  let r := Ratio.ofFloat x.abs
  if x.isFinite ∧ r.num % r.den = 0 ∧ r.num < Nat.pow 10 15 * r.den then
    let n : Int := (r.num / r.den : Nat)
    some (if x < 0 then -n else n)
  else none

/-- The text of a number with integers below `10 ^ 15` written by themselves, and without a sign if
they are zero. -/
def textInParts (x : Float) : String :=
  match whole? x with
  | some n => toString n
  | none => textOf x

theorem toString_neg {n : Nat} (pos : 0 < n) :
    toString (-n : Int) = "-" ++ String.ofList (Nat.toDigits 10 n) := by
  change Int.repr (-n) = _
  rw [Int.repr_eq_if, if_neg (by omega), Int.neg_neg, Int.toNat_natCast,
    Nat.repr_eq_ofList_toDigits]

theorem textOf_of_whole {n : Nat} (finite : x.isFinite = true)
    (whole : (Ratio.ofFloat x.abs).num = n * (Ratio.ofFloat x.abs).den)
    (small : n < Nat.pow 10 15) : textOf x = toString (if x < 0 then -(n : Int) else n) := by
  rcases unpack_of_isFinite finite with zero | ⟨s, m, e, pos, hx⟩
  · have same := Alike.of_beq zero
    have none : n = 0 := by
      have ratio : (Ratio.ofFloat (0 : Float).abs).num = 0 ∧
          0 < (Ratio.ofFloat (0 : Float).abs).den := by decide +kernel
      rw [same.abs, ratio.1] at whole
      exact (Nat.mul_eq_zero.mp whole.symm).resolve_right ratio.2.ne'
    rw [same.textOf, none, if_neg fun below => absurd ((same.lt (.refl 0)).mp below) (by decide)]
    rfl
  · have abs := isFinite_of_unpack (unpack_abs hx)
    have above := (zero_lt_iff (unpack_abs hx)).mpr rfl
    have pos : 0 < n := by exact_mod_cast (keeps_of_pos abs above whole).pos
    rw [textOf_of_unpack hx, shortest_of_whole abs above whole small, Decimal.digits_whole]
    by_cases below : x < 0
    · rw [if_pos below, if_pos below, toString_neg pos]
    · rw [if_neg below, if_neg below, String.empty_append]
      exact Nat.toString_eq_ofList_toDigits.symm

theorem textInParts_eq (x : Float) : textInParts x = textOf x := by
  unfold textInParts
  cases h : whole? x with
  | none => rfl
  | some n =>
    unfold whole? at h
    dsimp only at h ⊢
    split at h
    · next whole =>
      obtain ⟨finite, divides, small⟩ := whole
      obtain rfl := Option.some.inj h
      have quotient := Nat.div_mul_cancel (Nat.dvd_of_mod_eq_zero divides)
      rw [Nat.mul_comm] at small
      exact (textOf_of_whole finite quotient.symm (Nat.div_lt_of_lt_mul small)).symm
    · cases h

/-- Texts tell finite numbers apart. -/
theorem textOf_eq_iff (hx : x.isFinite = true) (hy : y.isFinite = true) :
    textOf x = textOf y ↔ (x == y) = true := by
  constructor
  · intro same
    obtain ⟨z, readz, hz⟩ := textOf_reads_back hx
    obtain ⟨w, readw, hw⟩ := textOf_reads_back hy
    rw [same, readw] at readz
    obtain rfl := Option.some.inj readz
    exact ((Alike.of_beq hz).symm.trans (Alike.of_beq hw)).beq_of_isFinite hy
  · intro equal
    exact (Alike.of_beq equal).textOf

end Numeral

end ReactiveSheet
