import Trinomial.Proofs.Number.Nearest

/-! # Integral numbers

The bit tests for integral and for odd numbers are tests of the value: a finite number passes the first
when its value is an integer, and an integer passes the second when it is odd.
-/
set_option autoImplicit false

namespace Trinomial.Number

section Magnitude
variable {x : Float} {n : ℕ} {k : ℤ}

/-! ## Values by magnitude -/

theorem value_of_magnitude (hx : x.isFinite = true) :
    value x = signum (signOf x) * ((magnitude x).significand * 2 ^ (magnitude x).scale) := by
  rcases finite_cases hx with ⟨h, hm⟩ | ⟨hreg, h⟩
  · rw [value, h, hm, Nat.cast_zero, zero_mul, mul_zero]
    rfl
  · rw [value, h]
    rfl

theorem significand_lt (hx : x.isFinite = true) : (magnitude x).significand < 2 ^ 53 := by
  rcases finite_cases hx with ⟨-, hm⟩ | ⟨hreg, -⟩
  · rw [hm]
    decide
  · exact hreg.lt

/-- The size of an integer, in units of the significand. -/
theorem magnitude_of_integer (hx : Denotes x k) :
    ((magnitude x).significand * 2 ^ (magnitude x).scale : ℚ) = k.natAbs := by
  have h := congrArg abs ((value_of_magnitude hx.finite).symm.trans hx.value_eq)
  rw [abs_mul, abs_signum, one_mul, abs_of_nonneg (by positivity)] at h
  rw [h, Nat.cast_natAbs, Int.cast_abs]

/-- Cutting the places after the point leaves an integer as it is. -/
theorem shifted_of_integer (hx : Denotes x k) (hs : (magnitude x).scale ≤ 0) :
    (magnitude x).significand >>> (-(magnitude x).scale).toNat = k.natAbs := by
  have h := magnitude_of_integer hx
  obtain ⟨d, hd⟩ := Int.le.dest hs
  have hscale : (magnitude x).scale = -d := by omega
  rw [hscale, zpow_neg, zpow_natCast, ← div_eq_mul_inv, div_eq_iff (by positivity)] at h
  rw [hscale, neg_neg, Int.toNat_natCast, Nat.shiftRight_eq_div_pow]
  have hm : (magnitude x).significand = k.natAbs * 2 ^ d := by exact_mod_cast h
  rw [hm, Nat.mul_div_cancel _ (by positivity)]

/-! ## The integral part -/

theorem denotes_word (hn : n < 2 ^ 53) : Denotes n.toUInt64.toFloat n := by
  rcases Nat.eq_zero_or_pos n with rfl | hpos
  · exact ⟨by rfl, by rw [Nat.cast_zero]; rfl⟩
  · obtain ⟨m, e, hm, hparts, -, hvalue⟩ := exactly_of_lt hpos hn
    refine ⟨?_, by rw [value, hparts, value_of_positive, hvalue]⟩
    change (parts _).isFinite = true
    rw [hparts]
    rfl

theorem denotes_truncate (hx : x.isFinite = true) (hs : ¬0 ≤ (magnitude x).scale) :
    Denotes (truncate x)
      (signum (signOf x) * ((magnitude x).significand >>> (-(magnitude x).scale).toNat : ℕ)) := by
  have hword := denotes_word (n := (magnitude x).significand >>> (-(magnitude x).scale).toNat)
    ((Nat.shiftRight_le _ _).trans_lt (significand_lt hx))
  rw [truncate, if_neg hs, withSign, signOf]
  cases isNegative x with
  | true =>
    rw [if_pos rfl, if_pos rfl, signum, neg_one_mul]
    exact hword.neg
  | false =>
    rw [if_neg Bool.false_ne_true, if_neg Bool.false_ne_true, signum, one_mul]
    exact hword

/-! ## The tests -/

/-- A finite number is integral when its value is an integer. -/
theorem is_integral_iff (hx : x.isFinite = true) :
    isIntegral x = true ↔ ∃ k : ℤ, value x = k := by
  rw [isIntegral]
  by_cases hs : 0 ≤ (magnitude x).scale
  · rw [truncate, if_pos hs]
    refine iff_of_true (beq_self hx) ⟨(signOf x).apply ((magnitude x).significand *
      2 ^ (magnitude x).scale.toNat), ?_⟩
    rw [value_of_magnitude hx, cast_apply]
    conv_lhs => rw [← Int.toNat_of_nonneg hs, zpow_natCast]
    push_cast
    rfl
  · have htruncate := denotes_truncate hx hs
    rw [beq_iff_value htruncate.finite hx, htruncate.value_eq]
    constructor
    · intro h
      refine ⟨(signOf x).apply ((magnitude x).significand >>> (-(magnitude x).scale).toNat : ℕ), ?_⟩
      rw [← h, cast_apply, Int.cast_natCast]
    · rintro ⟨k, hk⟩
      have hdenotes : Denotes x k := ⟨hx, hk⟩
      rw [shifted_of_integer hdenotes (by omega), value_of_magnitude hx,
        magnitude_of_integer hdenotes]

theorem is_odd_iff (hx : Denotes x k) : isOdd x = true ↔ Odd k := by
  rw [isOdd, Bool.and_eq_true, decide_eq_true_iff, beq_iff_eq, ← Int.natAbs_odd, Nat.odd_iff]
  by_cases hs : (magnitude x).scale ≤ 0
  · rw [shifted_of_integer hx hs]
    exact and_iff_right hs
  · -- a larger unit than one leaves even numbers only
    have h := magnitude_of_integer hx
    obtain ⟨d, hd⟩ := Int.le.dest (by omega : 1 ≤ (magnitude x).scale)
    rw [← hd, zpow_one_add₀ two_ne_zero, zpow_natCast] at h
    have heven : k.natAbs = 2 * ((magnitude x).significand * 2 ^ d) := by
      have hcast : (k.natAbs : ℚ) = 2 * ((magnitude x).significand * 2 ^ d) := by
        rw [← h]
        ring
      exact_mod_cast hcast
    omega

end Magnitude
end Trinomial.Number
