import Trinomial.Proofs.Number.Arithmetic
import Trinomial.Proofs.Number.Order

/-! # Arithmetic of opposite numbers

Products and quotients turn with each of their arguments. A sum turns with both of them, except that a
sum which cancels is `0.0` either way, so a law of sums holds for what is blind to the sign of zero.
-/
set_option autoImplicit false

namespace Trinomial.Number
open Float.Model Float.Model.UnpackedFloat

/-! ## Signs of parts -/

theorem parts_of_neg_parts (u : UnpackedFloat) : parts (ofParts u.neg) = (parts (ofParts u)).neg := by
  change UnpackedFloat.unpack Format.binary64 (UnpackedFloat.pack Format.binary64 u.neg) =
    (UnpackedFloat.unpack Format.binary64 (UnpackedFloat.pack Format.binary64 u)).neg
  cases u with
  | notANumber => rfl
  | infinity s => cases s <;> rfl
  | zero s => cases s <;> rfl
  | finite s m e hm =>
    simp only [UnpackedFloat.neg, UnpackedFloat.pack]
    split_ifs
    · cases s <;> rfl
    all_goals
      simp only [UnpackedFloat.unpack, unpackMantissa_packComponents, unpackExponent_packComponents,
        unpackSign_packComponents, Sign.ofBitVec_toBitVec]
      split_ifs <;> rfl

theorem of_parts_neg (u : UnpackedFloat) : ofParts u.neg = -ofParts u :=
  eq_of_parts ((parts_of_neg_parts u).trans (parts_neg _).symm)

theorem round_neg (s : Sign) (m : ℕ) (e : ℤ) (a : Accuracy) :
    roundWithAccuracy Format.binary64 (-s) m e a = (roundWithAccuracy Format.binary64 s m e a).neg := by
  simp only [roundWithAccuracy]
  split_ifs <;> rfl

theorem sign_neg_mul (s t : Sign) : -s * t = -(s * t) := by
  cases s <;> cases t <;> rfl

theorem sign_mul_neg (s t : Sign) : s * -t = -(s * t) := by
  cases s <;> cases t <;> rfl

theorem sign_neg_div (s t : Sign) : -s / t = -(s / t) := by
  cases s <;> cases t <;> rfl

theorem sign_div_neg (s t : Sign) : s / -t = -(s / t) := by
  cases s <;> cases t <;> rfl

theorem parts_mul_neg (u v : UnpackedFloat) :
    UnpackedFloat.mul Format.binary64 u v.neg = (UnpackedFloat.mul Format.binary64 u v).neg := by
  cases u <;> cases v <;>
    simp only [UnpackedFloat.mul, UnpackedFloat.neg, sign_mul_neg, round_neg]

theorem parts_neg_mul (u v : UnpackedFloat) :
    UnpackedFloat.mul Format.binary64 u.neg v = (UnpackedFloat.mul Format.binary64 u v).neg := by
  cases u <;> cases v <;>
    simp only [UnpackedFloat.mul, UnpackedFloat.neg, sign_neg_mul, round_neg]

theorem parts_neg_div (u v : UnpackedFloat) :
    UnpackedFloat.div Format.binary64 u.neg v = (UnpackedFloat.div Format.binary64 u v).neg := by
  cases u <;> cases v <;>
    simp only [UnpackedFloat.div, UnpackedFloat.neg, sign_neg_div, round_neg]

theorem parts_div_neg (u v : UnpackedFloat) :
    UnpackedFloat.div Format.binary64 u v.neg = (UnpackedFloat.div Format.binary64 u v).neg := by
  cases u <;> cases v <;>
    simp only [UnpackedFloat.div, UnpackedFloat.neg, sign_div_neg, round_neg]

/-! ## Products and quotients -/

section Products
variable (x y : Float)

theorem float_neg_mul : -x * y = -(x * y) := by
  rw [mul_eq, parts_neg, parts_neg_mul, of_parts_neg, mul_eq]

theorem float_mul_neg : x * -y = -(x * y) := by
  rw [mul_eq, parts_neg, parts_mul_neg, of_parts_neg, mul_eq]

theorem float_neg_one_mul : -1.0 * x = -x := by
  rw [float_neg_mul, float_one_mul]

theorem float_neg_mul_neg : -x * -y = x * y := by
  rw [float_neg_mul, float_mul_neg, float_neg_neg]

theorem float_neg_div : -x / y = -(x / y) := by
  rw [div_eq, parts_neg, parts_neg_div, of_parts_neg, div_eq]

theorem float_div_neg : x / -y = -(x / y) := by
  rw [div_eq, parts_neg, parts_div_neg, of_parts_neg, div_eq]

theorem float_neg_div_neg : -x / -y = x / y := by
  rw [float_neg_div, float_div_neg, float_neg_neg]

theorem float_abs_neg : (-x).abs = x.abs := by
  apply eq_of_parts
  rw [parts_abs, parts_neg, parts_abs]
  cases parts x <;> rfl

end Products

/-! ## Sums -/

theorem sign_neg_apply (s : Sign) (k : ℤ) : (-s).apply k = -s.apply k := by
  cases s with
  | negative => exact (neg_neg k).symm
  | positive => rfl

/-- A sum that is not exactly zero turns with its sign. -/
theorem normalize_neg {k : ℤ} (hk : k ≠ 0) (e : ℤ) (s : Sign) :
    UnpackedFloat.normalize Format.binary64 (-k) e s =
      (UnpackedFloat.normalize Format.binary64 k e s).neg := by
  rcases lt_or_gt_of_ne hk with h | h
  · rw [UnpackedFloat.normalize, UnpackedFloat.normalize, compare_gt_iff_gt.mpr (neg_pos.mpr h),
      compare_lt_iff_lt.mpr h]
    exact round_neg .negative _ _ _
  · rw [UnpackedFloat.normalize, UnpackedFloat.normalize, compare_lt_iff_lt.mpr (neg_neg_of_pos h),
      compare_gt_iff_gt.mpr h, neg_neg]
    exact round_neg .positive _ _ _

theorem parts_add_neg (u v : UnpackedFloat) :
    UnpackedFloat.add Format.binary64 u.neg v.neg = (UnpackedFloat.add Format.binary64 u v).neg ∨
      UnpackedFloat.add Format.binary64 u v = .zero .positive ∧
        UnpackedFloat.add Format.binary64 u.neg v.neg = .zero .positive := by
  cases u with
  | notANumber => exact .inl rfl
  | infinity s =>
    refine .inl ?_
    cases v with
    | infinity t => cases s <;> cases t <;> rfl
    | _ => rfl
  | zero s =>
    cases v with
    | zero t =>
      cases s <;> cases t
      · exact .inl rfl
      · exact .inr ⟨rfl, rfl⟩
      · exact .inr ⟨rfl, rfl⟩
      · exact .inl rfl
    | _ => exact .inl rfl
  | finite s m e hm =>
    cases v with
    | finite t n f hn =>
      simp only [UnpackedFloat.add, UnpackedFloat.neg, sign_neg_apply, ← neg_add]
      generalize s.apply _ + t.apply _ = k
      by_cases hk : k = 0
      · rw [hk]
        exact .inr ⟨rfl, rfl⟩
      · exact .inl (normalize_neg hk _ _)
    | _ => exact .inl rfl

theorem parts_sub (u v : UnpackedFloat) :
    UnpackedFloat.sub Format.binary64 u v = UnpackedFloat.add Format.binary64 u v.neg := by
  cases u <;> cases v <;>
    simp only [UnpackedFloat.sub, UnpackedFloat.add, UnpackedFloat.neg, sign_neg_apply,
      sub_eq_add_neg]

section Sums
variable (x y : Float)

theorem float_sub_eq : x - y = x + -y := by
  rw [sub_eq, add_eq, parts_neg, parts_sub]

/-- Opposite summands have opposite sums, except that a sum which cancels is `0.0` both times. -/
theorem float_neg_add_neg : -x + -y = -(x + y) ∨ x + y = 0.0 ∧ -x + -y = 0.0 := by
  simp only [add_eq, parts_neg]
  rcases parts_add_neg (parts x) (parts y) with h | ⟨h, h'⟩
  · exact .inl (by rw [h, of_parts_neg])
  · exact .inr ⟨by rw [h]; rfl, by rw [h']; rfl⟩

theorem Blind.neg_add_neg {β : Type} {f : Float → β} (hf : Blind f) : f (-x + -y) = f (-(x + y)) := by
  rcases float_neg_add_neg x y with h | ⟨h, h'⟩
  · rw [h]
  · rw [h, h']
    exact hf

theorem Blind.neg_sub {β : Type} {f : Float → β} (hf : Blind f) : f (-x - y) = f (-(x + y)) := by
  rw [float_sub_eq]
  exact hf.neg_add_neg x y

theorem Blind.neg_add {β : Type} {f : Float → β} (hf : Blind f) : f (-x + y) = f (-(x - y)) := by
  rw [float_sub_eq, ← hf.neg_add_neg, float_neg_neg]

end Sums

/-! ## Comparison with zero -/

section Signs
variable {x : Float}

theorem is_nan_neg : (-x).isNaN = x.isNaN := by
  change (parts (-x)).isNaN = (parts x).isNaN
  rw [parts_neg]
  cases parts x <;> rfl

theorem ordinal_neg : ordinal (-x) = -ordinal x := by
  rw [ordinal, ordinal, parts_neg]
  cases parts x with
  | notANumber => rfl
  | zero s => rfl
  | infinity s => exact sign_neg_apply s _
  | finite s m e hm => exact sign_neg_apply s _

theorem neg_lt_zero_iff (hx : x.isNaN = false) : -x < 0.0 ↔ 0.0 < x := by
  rw [lt_zero_iff_ordinal (is_nan_neg.trans hx), zero_lt_iff_ordinal hx, ordinal_neg]
  exact neg_lt_zero

theorem pos_of_neg_lt_zero (h : -x < 0.0) : 0.0 < x :=
  (neg_lt_zero_iff (is_nan_neg.symm.trans (is_nan_of_lt h).1)).mp h

theorem neg_of_nan (hx : x.isNaN = true) : -x = x := by
  apply eq_of_parts
  change (parts x).isNaN = true at hx
  rw [parts_neg]
  cases hp : parts x <;> rw [hp] at hx <;> first | rfl | cases hx

theorem zero_of_ordinal (hx : x.isNaN = false) (h : ordinal x = 0) : x = 0.0 ∨ x = -0.0 := by
  have hbeq : (x == 0.0) = true := (beq_iff_ordinal hx rfl).mpr h
  rcases (Float.beq_iff_ne_nan_and_eq.mp hbeq).2.2 with h | ⟨h, -⟩ | ⟨h, -⟩
  · exact .inl h
  · exact .inl h
  · exact .inr h

theorem blind_beq (y : Float) : Blind fun x => x == y := beq_congr (by decide) y

end Signs

/-! ## Negligible numbers -/

theorem is_negligible_eq (x : Float) : isNegligible x = decide (x.abs < tolerance) := by
  have h : (0.0 - x).abs = x.abs := by
    apply eq_of_parts
    have hsub : parts (0.0 - x) = (parts x).neg ∨ parts x = .zero .positive ∧
        parts (0.0 - x) = .zero .positive := by
      rw [float_sub_eq, add_eq, parts_zero, parts_neg]
      have hfits := fits_neg (parts_fits x)
      cases hx : parts x with
      | zero s =>
        cases s with
        | negative => exact .inl rfl
        | positive => exact .inr ⟨rfl, rfl⟩
      | _ =>
        rw [hx] at hfits
        exact .inl (parts_of_parts hfits)
    rw [parts_abs, parts_abs]
    rcases hsub with h | ⟨h, h'⟩
    · rw [h]
      cases parts x <;> rfl
    · rw [h, h']
  rw [isNegligible, near, h]

theorem negligible_of_zero {x : Float} {s : Sign} (h : parts x = .zero s) : isNegligible x = true := by
  rw [← of_parts_parts x, h]
  cases s <;> decide

/-- A number that is not negligible has a sign. -/
theorem signed_of_counts {x : Float} (hx : x.isNaN = false) (h : isNegligible x = false) :
    x < 0.0 ∨ 0.0 < x := by
  rw [lt_zero_iff_ordinal hx, zero_lt_iff_ordinal hx]
  apply lt_or_gt_of_ne
  intro hzero
  have hnegligible : isNegligible x = true := by
    rcases zero_of_ordinal hx hzero with hx | hx <;> rw [hx] <;> decide
  rw [h] at hnegligible
  cases hnegligible

theorem is_negligible_neg (x : Float) : isNegligible (-x) = isNegligible x := by
  rw [is_negligible_eq, is_negligible_eq, float_abs_neg]

end Trinomial.Number
