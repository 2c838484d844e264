import Mathlib.Tactic.Basic
import ReactiveSheet.Value

/-!
Numbers that differ at most in the sign of zero.

Arithmetic, comparison and printing do not tell such numbers apart, division by zero excepted. All
of it follows from how the operations treat zeros once a double has been taken to pieces: besides
the two zeros themselves no result depends on the sign of a zero operand.
-/

namespace ReactiveSheet.Numeral

open Float.Model (UnpackedFloat Format)
open Float.Model.UnpackedFloat (Sign)

/-- The same double, taken to pieces, or a zero each. -/
inductive Agree : UnpackedFloat → UnpackedFloat → Prop where
  | same (u : UnpackedFloat) : Agree u u
  | zeros (s t : Sign) : Agree (.zero s) (.zero t)

namespace Agree

variable {u v w x : UnpackedFloat} {spec : Format}

theorem symm (h : Agree u v) : Agree v u := by
  cases h with
  | same u => exact .same u
  | zeros s t => exact .zeros t s

theorem trans (h : Agree u v) (k : Agree v w) : Agree u w := by
  cases h with
  | same u => exact k
  | zeros s t =>
    cases k with
    | same u => exact .zeros s t
    | zeros t u => exact .zeros s u

theorem neg (h : Agree u v) : Agree u.neg v.neg := by
  cases h with
  | same u => exact .same _
  | zeros s t => exact .zeros (-s) (-t)

/-- An operation respects agreement if it does so in each operand by itself. -/
theorem congr {op : UnpackedFloat → UnpackedFloat → UnpackedFloat}
    (left : ∀ s t w, Agree (op (.zero s) w) (op (.zero t) w))
    (right : ∀ u s t, Agree (op u (.zero s)) (op u (.zero t))) (h : Agree u v) (k : Agree w x) :
    Agree (op u w) (op v x) := by
  have first : Agree (op u w) (op v w) := by
    cases h with
    | same u => exact .same _
    | zeros s t => exact left s t w
  have second : Agree (op v w) (op v x) := by
    cases k with
    | same w => exact .same _
    | zeros s t => exact right v s t
  exact first.trans second

theorem ite_zeros (c d : Prop) [Decidable c] [Decidable d] (s t s' t' : Sign) :
    Agree (if c then .zero s else .zero t) (if d then .zero s' else .zero t') := by
  split
  · split <;> exact .zeros _ _
  · split <;> exact .zeros _ _

theorem add (h : Agree u v) (k : Agree w x) : Agree (.add spec u w) (.add spec v x) := by
  refine congr ?_ ?_ h k
  · intro s t w
    cases w with
    | zero r => exact ite_zeros _ _ _ _ _ _
    | infinity r => exact .same _
    | notANumber => exact .same _
    | finite r m e hm => exact .same _
  · intro u s t
    cases u with
    | zero r => exact ite_zeros _ _ _ _ _ _
    | infinity r => exact .same _
    | notANumber => exact .same _
    | finite r m e hm => exact .same _

theorem sub (h : Agree u v) (k : Agree w x) : Agree (.sub spec u w) (.sub spec v x) := by
  refine congr ?_ ?_ h k
  · intro s t w
    cases w with
    | zero r => exact ite_zeros _ _ _ _ _ _
    | infinity r => exact .same _
    | notANumber => exact .same _
    | finite r m e hm => exact .same _
  · intro u s t
    cases u with
    | zero r => exact ite_zeros _ _ _ _ _ _
    | infinity r => exact .same _
    | notANumber => exact .same _
    | finite r m e hm => exact .same _

theorem mul (h : Agree u v) (k : Agree w x) : Agree (.mul spec u w) (.mul spec v x) := by
  refine congr ?_ ?_ h k
  · intro s t w
    cases w with
    | zero r => exact .zeros _ _
    | infinity r => exact .same _
    | notANumber => exact .same _
    | finite r m e hm => exact .zeros _ _
  · intro u s t
    cases u with
    | zero r => exact .zeros _ _
    | infinity r => exact .same _
    | notANumber => exact .same _
    | finite r m e hm => exact .zeros _ _

theorem div (h : Agree u v) (w : UnpackedFloat) : Agree (.div spec u w) (.div spec v w) := by
  cases h with
  | same u => exact .same _
  | zeros s t =>
    cases w with
    | zero r => exact .same _
    | infinity r => exact .zeros _ _
    | notANumber => exact .same _
    | finite r m e hm => exact .zeros _ _

theorem compare_left (h : Agree u v) (w : UnpackedFloat) : u.compare w = v.compare w := by
  cases h with
  | same u => rfl
  | zeros s t =>
    cases w with
    | zero r => rfl
    | infinity r => cases r <;> rfl
    | notANumber => rfl
    | finite r m e hm => cases r <;> rfl

theorem compare_right (u : UnpackedFloat) (h : Agree v w) : u.compare v = u.compare w := by
  cases h with
  | same v => rfl
  | zeros s t =>
    cases u with
    | zero r => rfl
    | infinity r => cases r <;> rfl
    | notANumber => rfl
    | finite r m e hm => cases r <;> rfl

theorem compare (h : Agree u v) (k : Agree w x) : u.compare w = v.compare x :=
  (h.compare_left w).trans (compare_right v k)

theorem isFinite (h : Agree u v) : u.isFinite = v.isFinite := by
  cases h with
  | same u => rfl
  | zeros s t => rfl

theorem isNaN (h : Agree u v) : u.isNaN = v.isNaN := by
  cases h with
  | same u => rfl
  | zeros s t => rfl

theorem isInf (h : Agree u v) : u.isInf = v.isInf := by
  cases h with
  | same u => rfl
  | zeros s t => rfl

theorem finite_of_compare {e₁ e₂ : Int} {m₁ m₂ : Nat} (s : Sign) (h₁ : 0 < m₁) (h₂ : 0 < m₂)
    (h : ((Ord.compare e₁ e₂).then (Ord.compare m₁ m₂)) = .eq) :
    Agree (.finite s m₁ e₁ h₁) (.finite s m₂ e₂ h₂) := by
  obtain ⟨he, hm⟩ := Ordering.then_eq_eq.mp h
  obtain rfl := Std.LawfulEqOrd.eq_of_compare he
  obtain rfl := Std.LawfulEqOrd.eq_of_compare hm
  exact .same _

theorem of_compare (h : u.compare v = some .eq) : Agree u v := by
  cases u with
  | notANumber => exact nomatch h
  | infinity s =>
    cases v with
    | notANumber => cases s <;> exact nomatch h
    | infinity t =>
      cases s <;> cases t
      · exact .same _
      · exact nomatch h
      · exact nomatch h
      · exact .same _
    | zero t => cases s <;> exact nomatch h
    | finite t m e hm => cases s <;> exact nomatch h
  | zero s =>
    cases v with
    | notANumber => exact nomatch h
    | infinity t => cases t <;> exact nomatch h
    | zero t => exact .zeros s t
    | finite t m e hm => cases t <;> exact nomatch h
  | finite s m e hm =>
    cases v with
    | notANumber => exact nomatch h
    | infinity t => cases t <;> exact nomatch h
    | zero t => cases s <;> exact nomatch h
    | finite t n f hn =>
      cases s <;> cases t
      · have := Option.some.inj h
        exact finite_of_compare _ hm hn (Ordering.swap_eq_eq.mp this)
      · exact nomatch h
      · exact nomatch h
      · exact finite_of_compare _ hm hn (Option.some.inj h)

theorem compare_self (h : Agree u v) (number : u.isNaN = false) : u.compare v = some .eq := by
  rw [← compare_right u h]
  cases u with
  | notANumber => exact absurd number Bool.noConfusion
  | infinity s => cases s <;> rfl
  | zero s => rfl
  | finite s m e hm =>
    have same : (Ord.compare e e).then (Ord.compare m m) = .eq := by simp
    cases s with
    | negative => exact congrArg some (congrArg Ordering.swap same)
    | positive => exact congrArg some same

end Agree

/-- The same number. -/
def Alike (x y : Float) : Prop := Agree x.toModel.unpack y.toModel.unpack

theorem isNaN_of_isFinite {n : Float} (h : n.isFinite = true) : n.isNaN = false := by
  change n.toModel.unpack.isFinite = true at h
  change n.toModel.unpack.isNaN = false
  cases hn : n.toModel.unpack with
  | notANumber =>
    rw [hn] at h
    exact absurd h Bool.noConfusion
  | infinity s => rfl
  | zero s => rfl
  | finite s m e hm => rfl

theorem unpack_pack_zero (s : Sign) : ∃ t, (Float.Model.pack (.zero s)).unpack = .zero t := by
  cases s with
  | negative => exact ⟨.negative, rfl⟩
  | positive => exact ⟨.positive, rfl⟩

namespace Alike

variable {x y z w : Float}

theorem of_agree {u v : UnpackedFloat} (h : Agree u v) :
    Alike (.ofModel (.pack u)) (.ofModel (.pack v)) := by
  cases h with
  | same u => exact .same _
  | zeros s t =>
    obtain ⟨s', hs⟩ := unpack_pack_zero s
    obtain ⟨t', ht⟩ := unpack_pack_zero t
    rw [Alike, hs, ht]
    exact .zeros s' t'

theorem refl (x : Float) : Alike x x := .same _

theorem symm (h : Alike x y) : Alike y x := Agree.symm h

theorem trans (h : Alike x y) (k : Alike y z) : Alike x z := Agree.trans h k

theorem add (h : Alike x y) (k : Alike z w) : Alike (x + z) (y + w) := of_agree (Agree.add h k)

theorem sub (h : Alike x y) (k : Alike z w) : Alike (x - z) (y - w) := of_agree (Agree.sub h k)

theorem mul (h : Alike x y) (k : Alike z w) : Alike (x * z) (y * w) := of_agree (Agree.mul h k)

theorem neg (h : Alike x y) : Alike (-x) (-y) := of_agree (Agree.neg h)

theorem div_left (h : Alike x y) (z : Float) : Alike (x / z) (y / z) :=
  of_agree (Agree.div h z.toModel.unpack)

theorem beq (h : Alike x y) (k : Alike z w) : (x == z) = (y == w) :=
  congrArg (fun o => o == some Ordering.eq) (Agree.compare h k)

theorem lt (h : Alike x y) (k : Alike z w) : x < z ↔ y < w := by
  have same : x.toModel.lt z.toModel = y.toModel.lt w.toModel :=
    congrArg (fun o => o == some Ordering.lt) (Agree.compare h k)
  change decide (x.toModel.lt z.toModel = true) = true ↔
    decide (y.toModel.lt w.toModel = true) = true
  rw [same]

theorem le (h : Alike x y) (k : Alike z w) : x ≤ z ↔ y ≤ w := by
  have same : x.toModel.le z.toModel = y.toModel.le w.toModel :=
    congrArg (fun o => o.any Ordering.isLE) (Agree.compare h k)
  change decide (x.toModel.le z.toModel = true) = true ↔
    decide (y.toModel.le w.toModel = true) = true
  rw [same]

theorem isFinite (h : Alike x y) : x.isFinite = y.isFinite := Agree.isFinite h

theorem isNaN (h : Alike x y) : x.isNaN = y.isNaN := Agree.isNaN h

theorem isInf (h : Alike x y) : x.isInf = y.isInf := Agree.isInf h

theorem abs (h : Alike x y) : x.abs = y.abs := by
  unfold Float.abs Float.Model.abs
  unfold Alike at h
  generalize x.toModel.unpack = u at h ⊢
  generalize y.toModel.unpack = v at h ⊢
  cases h with
  | same u => rfl
  | zeros s t => rfl

theorem of_beq (h : (x == y) = true) : Alike x y := Agree.of_compare (eq_of_beq h)

theorem beq_self (h : Alike x y) (number : x.isNaN = false) : (x == y) = true := by
  have same := Agree.compare_self h number
  exact congrArg (fun o => o == some Ordering.eq) same

theorem beq_of_isFinite (h : Alike x y) (finite : y.isFinite = true) : (x == y) = true :=
  h.beq_self (h.isNaN.trans (isNaN_of_isFinite finite))

/-- A divisor other than zero does not tell zeros apart either. -/
theorem div (h : Alike x y) (k : Alike z w) (divisor : (z == 0.0) = false) :
    Alike (x / z) (y / w) := by
  have same : z.toModel.unpack = w.toModel.unpack := by
    have apart : z.toModel.unpack.compare (.zero .positive) ≠ some .eq := fun zero => by
      have : (z == 0.0) = true := congrArg (fun o => o == some Ordering.eq) zero
      exact Bool.noConfusion (divisor.symm.trans this)
    unfold Alike at k
    generalize z.toModel.unpack = u at k apart ⊢
    generalize w.toModel.unpack = v at k ⊢
    cases k with
    | same u => rfl
    | zeros s t => exact absurd rfl apart
  have right : x / z = x / w := congrArg (fun u => Float.ofModel (.pack (.div .binary64 _ u))) same
  exact right ▸ h.div_left w

theorem textOf (h : Alike x y) : Numeral.textOf x = Numeral.textOf y := by
  unfold Numeral.textOf
  simp only [h.isNaN, h.beq (.refl 0), h.lt (.refl 0), h.isInf, h.abs]

end Alike

end ReactiveSheet.Numeral
