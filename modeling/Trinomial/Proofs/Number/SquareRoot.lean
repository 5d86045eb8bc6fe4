import Trinomial.Proofs.Number.Approach

/-! # Square roots of perfect squares

Newton's iteration for the square of an integer approaches the root from above, the root being the lower
one of its own neighbours. Far from the root a step leaves at most three quarters of the distance and
moves by more than the tolerance; near to it a step meets the root exactly. So the square root of a
perfect square is exact.
-/
set_option autoImplicit false

namespace Trinomial.Number

/-! ## One step -/

/-- `p` is an estimate, from above, of the root of `x`, the square of `n`. -/
structure Estimate (n : ℕ) (x p : Float) : Prop where
  pos : 0 < n
  lt : n < 2 ^ 26
  radicand : Denotes x (n ^ 2)
  finite : p.isFinite = true
  ge : n ≤ value p
  le_square : value p ≤ n ^ 2

namespace Estimate
variable {n : ℕ} {x p : Float} (h : Estimate n x p)
include h

theorem denotes : Denotes p (value p) := ⟨h.finite, rfl⟩

theorem value_pos : 0 < value p := lt_of_lt_of_le (by exact_mod_cast h.pos) h.ge

theorem bounds : (1 : ℚ) ≤ n ∧ (n : ℚ) < 2 ^ 26 ∧ (n : ℚ) ^ 2 ≤ 2 ^ 52 := by
  have hlt : (n : ℚ) < 2 ^ 26 := by exact_mod_cast h.lt
  refine ⟨by exact_mod_cast h.pos, hlt, ?_⟩
  calc (n : ℚ) ^ 2 ≤ (2 ^ 26) ^ 2 := pow_le_pow_left₀ (Nat.cast_nonneg n) hlt.le 2
    _ = 2 ^ 52 := by norm_num

theorem integer : Denotes (Float.ofNat n) n := denotes_of_nat (h.lt.trans (by norm_num))

/-- The root is the lower one of its neighbours. -/
theorem approach : ∃ b : Bracket (value x), b.low = n ∧ Approach b p := by
  obtain ⟨hn, -, hsquare⟩ := h.bounds
  have hvalue := h.radicand.value_eq
  have hone : (1 : ℚ) ≤ n ^ 2 := one_le_pow₀ hn
  have hrange : (n : ℚ) ^ 2 < rangeTop := lt_range_top_of_le (by linarith)
  obtain ⟨b⟩ := exists_bracket (q := value x)
    (by rw [hvalue]; exact le_trans (by norm_num) hone) (by linarith)
  have hle : b.low ≤ n :=
    (pow_le_pow_iff_left₀ b.low_pos.le (by positivity) two_ne_zero).mp (b.low_sq_le.trans_eq hvalue)
  have hlow : b.low = n := by
    by_contra hne
    have hhigh := b.high_le_of_lt h.integer (lt_of_le_of_ne hle hne)
    have hlt := hvalue.symm.trans_lt b.lt_high_sq
    exact absurd (pow_le_pow_left₀ (b.low_pos.le.trans b.low_le_high) hhigh 2) hlt.not_ge
  exact ⟨b, hlow, h.radicand.finite, h.finite, hlow.trans_le h.ge,
    (lt_range_top_of_le (by linarith [h.le_square])).le⟩

/-- The exact cofactor of the estimate. -/
theorem cofactor_bounds : 1 ≤ n ^ 2 / value p ∧ n ^ 2 / value p ≤ n := by
  rw [le_div_iff₀ h.value_pos, div_le_iff₀ h.value_pos, one_mul]
  refine ⟨h.le_square, ?_⟩
  rw [sq]
  exact mul_le_mul_of_nonneg_left h.ge (Nat.cast_nonneg n)

theorem cofactor_nearest : IsNearest (x / p) (n ^ 2 / value p) := by
  obtain ⟨b, -, ha⟩ := h.approach
  have hnearest := ha.cofactor_nearest
  rwa [h.radicand.value_eq] at hnearest

theorem cofactor_le : value (x / p) ≤ n := h.cofactor_nearest.le_of_le h.integer h.cofactor_bounds.2

/-- No step falls below the root. -/
theorem le_step : n ≤ value (newtonStep x p) := by
  obtain ⟨b, hb, ha⟩ := h.approach
  exact hb.symm.trans_le ha.le_step

/-- Far from the root a step leaves at most three quarters of the distance. -/
theorem step_far (hfar : n / 2 ^ 28 ≤ value p - n) :
    value (newtonStep x p) - n ≤ 3 / 4 * (value p - n) := by
  obtain ⟨b, hb, ha⟩ := h.approach
  obtain ⟨hn, hlt, hsquare⟩ := h.bounds
  have hp := h.le_square
  have hcofactor := h.cofactor_le
  have hreflection := ha.reflection_le_cofactor
  rw [hb] at hreflection
  -- the sum adds its relative error
  have herror := abs_le.mp (ha.sum_nearest.error_le (range_bottom_le_of_one (by linarith))
    (lt_range_top_of_le (by linarith)))
  rw [ha.step_denotes.value_eq]
  linarith [herror.1]

/-- Near to the root a step meets it. -/
theorem step_near (hnear : value p - n < n / 2 ^ 28) : value (newtonStep x p) = n := by
  have hn : (0 : ℚ) < n := by exact_mod_cast h.pos
  have hpos := h.value_pos
  obtain ⟨b, hb, ha⟩ := h.approach
  obtain ⟨y, hy⟩ := b.exists_low
  obtain ⟨z, hz⟩ := b.exists_reflection h.denotes ha.ge (by rw [hb]; linarith)
  obtain ⟨w, hw⟩ := b.exists_double hy le_rfl b.double_low_le
  have hge := ha.reflection_le_cofactor
  have hle := ha.le_step
  rw [hb] at hz hw hge hle
  -- the reflection of the estimate is almost the exact cofactor
  have hreflection : 2 * n - value p ≤ n ^ 2 / value p ∧
      n ^ 2 / value p - (2 * n - value p) ≤ n / 2 ^ 56 := by
    have hge := h.ge
    rw [le_div_iff₀ hpos, sub_le_iff_le_add, div_le_iff₀ hpos]
    constructor <;> nlinarith
  have hcofactor := h.cofactor_nearest.dist_le hz
  rw [abs_of_nonneg (by linarith : 0 ≤ n ^ 2 / value p - (2 * n - value p)), abs_le] at hcofactor
  -- so the sum is almost twice the root, and so is the rounded sum
  have hsum := ha.sum_nearest.dist_le hw
  rw [abs_of_nonneg (by linarith : 0 ≤ value p + value (x / p) - 2 * n), abs_le] at hsum
  -- and no number lies that near above the root
  by_contra hne
  have hgap := b.high_le_of_lt ha.step.denotes (hb.trans_lt (lt_of_le_of_ne hle (Ne.symm hne)))
  have hunit := b.high_le
  rw [b.high_eq, hb] at hgap hunit
  rw [ha.step_denotes.value_eq] at hgap
  linarith

theorem step_le : value (newtonStep x p) ≤ value p := by
  have hge := h.ge
  rcases lt_or_ge (value p - n) (n / 2 ^ 28) with hnear | hfar
  · rw [h.step_near hnear]
    exact hge
  · linarith [h.step_far hfar]

/-- A step takes an estimate to an estimate. -/
theorem step : Estimate n x (newtonStep x p) := by
  obtain ⟨b, -, ha⟩ := h.approach
  exact ⟨h.pos, h.lt, h.radicand, ha.step.finite, h.le_step, h.step_le.trans h.le_square⟩

/-! ## The stopping test -/

theorem moved_nearest : IsNearest (newtonStep x p - p) (value (newtonStep x p) - value p) := by
  have hge := h.le_step
  have hle := h.step_le
  have hp := h.le_square
  obtain ⟨hn, -, hsquare⟩ := h.bounds
  refine h.step.denotes.sub h.denotes ?_
  rw [abs_of_nonpos (by linarith)]
  exact lt_range_top_of_le (by linarith)

/-- A step from afar is no reason to stop. -/
theorem moves_far (hfar : n / 2 ^ 28 ≤ value p - n) : ¬(newtonStep x p - p).abs < tolerance := by
  obtain ⟨hn, -, -⟩ := h.bounds
  have hstep := h.step_far hfar
  have hunit : ((-1 : ℤ) : ℚ) * 2 ^ (-30 : ℤ) = -(1 / 2 ^ 30) := by norm_num
  obtain ⟨z, hz⟩ := exists_dyadic (k := -1) (e := -30) (by norm_num) (by norm_num) (by norm_num)
  rw [hunit] at hz
  have hmoved := h.moved_nearest.le_of_le hz (by linarith)
  rw [small_iff ⟨h.moved_nearest.finite, rfl⟩, not_lt, abs_of_neg (by linarith)]
  linarith [tolerance_value.2]

theorem near_of_root (hroot : value p = n) : value p - n < n / 2 ^ 28 := by
  have hn : (0 : ℚ) < n := by exact_mod_cast h.pos
  rw [hroot, sub_self]
  positivity

/-- At the root the iteration stops. -/
theorem stays (hroot : value p = n) : (newtonStep x p - p).abs < tolerance := by
  apply stops_of_fixed h.finite
  exact ⟨h.step.finite, (h.step_near (h.near_of_root hroot)).trans hroot.symm⟩

end Estimate

/-! ## The iteration -/

section Iteration
variable {n : ℕ} {x p : Float}

/-- Near to the root two steps are enough. -/
theorem newton_near (h : Estimate n x p) (hnear : value p - n < n / 2 ^ 28) (steps : ℕ) :
    ∃ r, newton x (steps + 2) p = some r ∧ Denotes r n := by
  have hroot : Denotes (newtonStep x p) n := ⟨h.step.finite, h.step_near hnear⟩
  rw [newton]
  split_ifs with hstop
  · exact ⟨_, rfl, hroot⟩
  · have hagain := h.step.step_near (h.step.near_of_root hroot.value_eq)
    rw [newton, if_pos (h.step.stays hroot.value_eq)]
    exact ⟨_, rfl, h.step.step.finite, hagain⟩

/-- The iteration finds the root when there are enough steps to come near to it. -/
theorem newton_of_estimate (steps : ℕ) (h : Estimate n x p)
    (hsteps : (value p - n) * (3 / 4) ^ steps < n / 2 ^ 28) :
    ∃ r, newton x (steps + 2) p = some r ∧ Denotes r n := by
  induction steps generalizing p with
  | zero =>
    rw [pow_zero, mul_one] at hsteps
    exact newton_near h hsteps 0
  | succ steps ih =>
    rcases lt_or_ge (value p - n) (n / 2 ^ 28) with hnear | hfar
    · exact newton_near h hnear (steps + 1)
    · rw [newton, if_neg (h.moves_far hfar)]
      refine ih h.step (lt_of_le_of_lt ?_ hsteps)
      rw [pow_succ']
      calc (value (newtonStep x p) - n) * (3 / 4) ^ steps
          ≤ 3 / 4 * (value p - n) * (3 / 4) ^ steps :=
            mul_le_mul_of_nonneg_right (h.step_far hfar) (by positivity)
        _ = (value p - n) * (3 / 4 * (3 / 4) ^ steps) := by ring

/-- Half of the square is an estimate of the root, from two on. -/
theorem first_estimate (hn : 2 ≤ n) (hlt : n < 2 ^ 26) (hx : Denotes x (n ^ 2)) :
    Estimate n x (x / 2.0) := by
  have hn' : (2 : ℚ) ≤ n := by exact_mod_cast hn
  have hhalf := hx.half (range_bottom_le_of_one (one_le_pow₀ (by linarith)))
  refine ⟨by omega, hlt, hx, hhalf.finite, ?_, ?_⟩ <;> rw [hhalf.value_eq]
  · nlinarith
  · linarith [sq_nonneg (n : ℚ)]

/-- The square root of a perfect square is exact. -/
theorem square_root_of_square (hn : 0 < n) (hlt : n < 2 ^ 26) (hx : Denotes x (n ^ 2)) :
    squareRoot x = .ok (Float.ofNat n) := by
  rcases Nat.lt_or_ge n 2 with hone | htwo
  · -- half of one lies below the root
    obtain rfl : n = 1 := by omega
    have hx1 : x = 1.0 := by
      refine hx.eq ⟨by rfl, ?_⟩ (by norm_num)
      rw [value, parts_one, value_of_positive]
      norm_num
    rw [hx1]
    decide +kernel
  have hn' : (0 : ℚ) < n := by exact_mod_cast hn
  have h := first_estimate htwo hlt hx
  have hsteps : (value (x / 2.0) - n) * (3 / 4) ^ 2046 < n / 2 ^ 28 := by
    have hle : value (x / 2.0) - n ≤ n * 2 ^ 26 := by
      obtain ⟨-, hcast, -⟩ := h.bounds
      nlinarith [h.le_square]
    have hpow : (3 / 4 : ℚ) ^ 2046 ≤ (3 / 4) ^ 140 :=
      pow_le_pow_of_le_one (by norm_num) (by norm_num) (by norm_num)
    have hend : (2 ^ 26 * (3 / 4) ^ 140 : ℚ) < 1 / 2 ^ 28 := by norm_num
    calc (value (x / 2.0) - n) * (3 / 4) ^ 2046 ≤ n * 2 ^ 26 * (3 / 4) ^ 140 :=
          mul_le_mul hle hpow (by positivity) (by positivity)
      _ = n * (2 ^ 26 * (3 / 4) ^ 140) := mul_assoc _ _ _
      _ < n * (1 / 2 ^ 28) := mul_lt_mul_of_pos_left hend hn'
      _ = (n : ℚ) / 2 ^ 28 := by rw [mul_one_div]
  obtain ⟨r, hr, hroot⟩ := newton_of_estimate 2046 h hsteps
  have hnonnegative : ¬x < 0.0 := by
    rw [hx.lt_iff denotes_zero_point, not_lt]
    positivity
  have hcounts : isNegligible x = false := by
    apply counts_of_one_le hx
    rw [abs_of_nonneg (by positivity)]
    exact one_le_pow₀ (by exact_mod_cast hn)
  have hnewton : newton x rootSteps (x / 2.0) = some r := hr
  rw [squareRoot, hcounts, if_neg Bool.false_ne_true, if_neg hnonnegative, hnewton]
  exact congrArg Except.ok (hroot.eq h.integer hn'.ne')

end Iteration
end Trinomial.Number
