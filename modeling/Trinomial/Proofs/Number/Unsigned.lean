import Trinomial.Proofs.Number.Accuracy
import Trinomial.Proofs.Number.Integrality

/-! # Numbers without a minus sign

Products, quotients and square roots of numbers without a minus sign have none, and such numbers are not
below zero. What is not a number has no sign, so it is among them.
-/
set_option autoImplicit false

namespace Trinomial.Number
open Float.Model Float.Model.UnpackedFloat

/-! ## Parts -/

/-- The parts have no minus sign. -/
inductive Unsigned : UnpackedFloat → Prop where
  | notANumber : Unsigned .notANumber
  | infinity : Unsigned (.infinity .positive)
  | zero : Unsigned (.zero .positive)
  | finite (m : ℕ) (e : ℤ) (hm : 0 < m) : Unsigned (.finite .positive m e hm)

namespace Unsigned
variable {u v : UnpackedFloat}

theorem of_rounded (m : ℕ) (e : ℤ) (a : Accuracy) :
    Unsigned (roundWithAccuracy Format.binary64 .positive m e a) := by
  rw [roundWithAccuracy]
  dsimp only
  split_ifs
  · exact zero
  · exact finite _ _ _

theorem mul (hu : Unsigned u) (hv : Unsigned v) :
    Unsigned (UnpackedFloat.mul Format.binary64 u v) := by
  cases hu <;> cases hv <;>
    first
    | exact notANumber
    | exact infinity
    | exact zero
    | exact of_rounded _ _ _

theorem div (hu : Unsigned u) (hv : Unsigned v) :
    Unsigned (UnpackedFloat.div Format.binary64 u v) := by
  cases hu <;> cases hv <;>
    first
    | exact notANumber
    | exact infinity
    | exact zero
    | exact of_rounded _ _ _

theorem not_lt_zero (hu : Unsigned u) (s : Sign) : u.lt (.zero s) = false := by
  cases hu <;> rfl

theorem of_parts (hu : Unsigned u) : isNegative (ofParts u) = false := by
  cases hu with
  | finite m e hm =>
    have hsign := sign_of_finite (s := .positive) (e := e) hm
    cases hn : isNegative (ofParts (.finite .positive m e hm)) with
    | false => rfl
    | true =>
      rw [sign_of_negative hn] at hsign
      cases hsign
  | _ => rfl

end Unsigned

/-! ## Numbers -/

section Numbers
variable {x y r : Float}

theorem unsigned_of_is_negative (h : isNegative x = false) : Unsigned (parts x) := by
  have hsign := sign_of_nonnegative h
  rw [parts_eq, hsign]
  split_ifs
  · exact .infinity
  · exact .notANumber
  · exact .finite _ _ _
  · exact .zero

theorem not_lt_zero_of_unsigned (h : isNegative x = false) : ¬x < 0.0 := by
  rw [lt_iff, parts_zero, (unsigned_of_is_negative h).not_lt_zero]
  exact Bool.false_ne_true

theorem unsigned_mul (hx : isNegative x = false) (hy : isNegative y = false) :
    isNegative (x * y) = false := by
  rw [mul_eq]
  exact ((unsigned_of_is_negative hx).mul (unsigned_of_is_negative hy)).of_parts

theorem unsigned_div (hx : isNegative x = false) (hy : isNegative y = false) :
    isNegative (x / y) = false := by
  rw [div_eq]
  exact ((unsigned_of_is_negative hx).div (unsigned_of_is_negative hy)).of_parts

theorem unsigned_mul_zero (hx : isNegative x = false) (hfinite : x.isFinite = true) : x * 0.0 = 0.0 := by
  have hunsigned := unsigned_of_is_negative hx
  change (parts x).isFinite = true at hfinite
  rw [mul_eq, parts_zero]
  cases hp : parts x with
  | notANumber =>
    rw [hp] at hfinite
    cases hfinite
  | infinity s =>
    rw [hp] at hfinite
    cases hfinite
  | zero s =>
    rw [hp] at hunsigned
    cases hunsigned
    rfl
  | finite s m e hm =>
    rw [hp] at hunsigned
    cases hunsigned
    rfl

theorem unsigned_of_value_pos (hx : x.isFinite = true) (h : 0 < value x) : isNegative x = false := by
  cases hn : isNegative x with
  | false => rfl
  | true =>
    rw [value_of_magnitude hx, sign_of_negative hn, signum, neg_one_mul, neg_pos] at h
    exact absurd h (not_lt.mpr (by positivity))

/-- What counts and is not below zero has no minus sign. -/
theorem unsigned_of_counts (hx : ¬x < 0.0) (hcounts : isNegligible x = false) :
    isNegative x = false := by
  rw [lt_iff, parts_zero] at hx
  rw [← of_parts_parts x]
  apply Unsigned.of_parts
  cases hp : parts x with
  | notANumber => exact .notANumber
  | zero s =>
    rw [negligible_of_zero hp] at hcounts
    cases hcounts
  | infinity s =>
    cases s with
    | positive => exact .infinity
    | negative =>
      rw [hp] at hx
      exact absurd rfl hx
  | finite s m e hm =>
    cases s with
    | positive => exact .finite m e hm
    | negative =>
      rw [hp, negative_lt_zero] at hx
      exact absurd rfl hx

theorem abs_of_unsigned (h : isNegative x = false) : x.abs = x := by
  have hunsigned := unsigned_of_is_negative h
  apply eq_of_parts
  rw [parts_abs]
  generalize parts x = u at hunsigned
  cases hunsigned <;> rfl

/-! ## Square roots -/

theorem root_ge (hcounts : isNegligible x = false) (h : squareRoot x = .ok r) :
    1 / 2 ^ 21 ≤ value r := by
  obtain ⟨hlo, ⟨b, hb⟩, -⟩ := exists_last_step hcounts h
  exact (b.low_ge hlo).trans hb.ge

theorem unsigned_square_root (h : squareRoot x = .ok r) : isNegative r = false := by
  cases hcounts : isNegligible x with
  | true =>
    rw [squareRoot, hcounts, if_pos rfl] at h
    cases h
    decide
  | false =>
    have hge := root_ge hcounts h
    exact unsigned_of_value_pos (finite_of_square_root h).2 (lt_of_lt_of_le (by norm_num) hge)

/-- A square root of what has no minus sign fails only by not converging. -/
theorem square_root_outcome (hx : isNegative x = false) :
    (∃ r, squareRoot x = .ok r) ∨ ∃ y n, squareRoot x = .error (.noConvergence y n) := by
  rw [squareRoot, if_neg (not_lt_zero_of_unsigned hx)]
  split_ifs
  · exact .inl ⟨_, rfl⟩
  · split
    · exact .inl ⟨_, rfl⟩
    · exact .inr ⟨_, _, rfl⟩

theorem square_root_negligible (h : isNegligible x = true) : squareRoot x = .ok 0.0 := by
  rw [squareRoot, if_pos h]

theorem square_root_infinite (hx : isNegative x = false) (h : x.isFinite = false) :
    ∃ y n, squareRoot x = .error (.noConvergence y n) := by
  refine (square_root_outcome hx).resolve_left fun ⟨r, hr⟩ => ?_
  have hfinite := (finite_of_square_root hr).1
  rw [h] at hfinite
  cases hfinite

theorem square_root_finite (hx : isNegative x = false) (hfinite : x.isFinite = true)
    (hcounts : isNegligible x = false) :
    ∃ r, squareRoot x = .ok r ∧ r.isFinite = true ∧ 1 / 2 ^ 21 ≤ value r := by
  have hnonneg := not_lt_zero_of_unsigned hx
  obtain ⟨r, hr⟩ := newton_ends hfinite (value_ge_of_counts hfinite hnonneg hcounts)
  have hroot : squareRoot x = .ok r := by
    rw [squareRoot, hcounts, if_neg Bool.false_ne_true, if_neg hnonneg, newton_mono hr (by decide)]
  exact ⟨r, hroot, (finite_of_square_root hroot).2, root_ge hcounts hroot⟩

end Numbers

end Trinomial.Number
