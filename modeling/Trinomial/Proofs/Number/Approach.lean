import Trinomial.Proofs.Number.Bracket

/-! # Steps towards a square root

An estimate from the lower neighbour of the root on stays there. Above the upper neighbour a step that
moves at all leaves at most four fifths of the distance to it. From the neighbours a step leads to a
neighbour, and it cannot lead from each of them to the other.
-/
set_option autoImplicit false

namespace Trinomial.Number

/-! ## The tolerance -/

theorem tolerance_parts : parts tolerance = .finite .positive 6189700196426901 (-89) (by decide) := by
  rfl

theorem tolerance_value : 2 ^ (-40 : ℤ) ≤ value tolerance ∧ value tolerance < 1 / 2 ^ 30 := by
  rw [value, tolerance_parts, value_of_positive]
  norm_num

theorem tolerance_pos : 0 < value tolerance := lt_of_lt_of_le (by positivity) tolerance_value.1

theorem tolerance_finite : tolerance.isFinite = true := by rfl

section Tolerance
variable {x p : Float} {q : ℚ}

theorem small_iff (hx : Denotes x q) : x.abs < tolerance ↔ |q| < value tolerance := by
  rw [lt_iff_value hx.abs.finite tolerance_finite, hx.abs.value_eq]

theorem counts_iff (hx : Denotes x q) : isNegligible x = false ↔ value tolerance ≤ |q| := by
  rw [is_negligible_eq, decide_eq_false_iff_not, small_iff hx, not_lt]

/-- What is at least one in size is not negligible. -/
theorem counts_of_one_le (hx : Denotes x q) (hq : 1 ≤ |q|) : isNegligible x = false := by
  rw [counts_iff hx]
  linarith [tolerance_value.2]

/-- Where a step does not move the iteration stops. -/
theorem stops_of_fixed (hp : p.isFinite = true) (hstep : Denotes (newtonStep x p) (value p)) :
    (newtonStep x p - p).abs < tolerance := by
  have hmoved := hstep.sub ⟨hp, rfl⟩ (by rw [sub_self, abs_zero]; norm_num [rangeTop])
  rw [sub_self] at hmoved
  rw [small_iff (hmoved.exact denotes_zero_point), abs_zero]
  exact tolerance_pos

end Tolerance

/-! ## Estimates -/

/-- `p` is an estimate of the root of `x`, not below the neighbours of the root. -/
structure Approach {x : Float} (b : Bracket (value x)) (p : Float) : Prop where
  radicand : x.isFinite = true
  finite : p.isFinite = true
  ge : b.low ≤ value p
  le : 2 * value p ≤ rangeTop

namespace Approach

section Step
variable {x p : Float} {b : Bracket (value x)} (h : Approach b p)
include h

theorem denotes : Denotes p (value p) := ⟨h.finite, rfl⟩

theorem value_pos : 0 < value p := b.low_pos.trans_le h.ge

/-! ## The cofactor -/

theorem quotient_le : value x / value p ≤ 2 * b.high := by
  have hlow := b.low_pos
  have hhigh := b.low_le_high
  have hdouble := b.high_le_double
  have hge := h.ge
  rw [div_le_iff₀ h.value_pos]
  calc value x ≤ b.high * b.high := b.le_high_mul
    _ ≤ b.high * (2 * value p) := mul_le_mul_of_nonneg_left (by linarith) (by linarith)
    _ = 2 * b.high * value p := by ring

theorem quotient_pos : 0 < value x / value p :=
  div_pos ((pow_pos b.low_pos 2).trans_le b.low_sq_le) h.value_pos

theorem cofactor_nearest : IsNearest (x / p) (value x / value p) := by
  refine Denotes.div ⟨h.radicand, rfl⟩ h.denotes h.value_pos.ne' ?_
  rw [abs_of_pos h.quotient_pos]
  linarith [h.quotient_pos, h.quotient_le, b.high_lt_range]

theorem cofactor_denotes : Denotes (x / p) (value (x / p)) := ⟨h.cofactor_nearest.finite, rfl⟩

theorem cofactor_le_double : value (x / p) ≤ 2 * b.high := by
  obtain ⟨y, hy⟩ := b.exists_high
  obtain ⟨z, hz⟩ := b.exists_double hy b.low_le_high b.double_high_le
  exact h.cofactor_nearest.le_of_le hz h.quotient_le

/-- The computed cofactor does not lie below the reflection of the estimate at the lower neighbour. -/
theorem reflection_le_cofactor : 2 * b.low - value p ≤ value (x / p) := by
  rcases lt_or_ge (value p) (2 * b.low) with hlt | hge
  · obtain ⟨z, hz⟩ := b.exists_reflection h.denotes h.ge hlt
    apply h.cofactor_nearest.ge hz
    rw [le_div_iff₀ h.value_pos]
    linarith [sq_nonneg (b.low - value p), b.low_sq_le]
  · have hzero := h.cofactor_nearest.ge denotes_zero_point h.quotient_pos.le
    linarith

theorem cofactor_le_high (hge : b.high ≤ value p) : value (x / p) ≤ b.high := by
  obtain ⟨y, hy⟩ := b.exists_high
  apply h.cofactor_nearest.le_of_le hy
  rw [div_le_iff₀ h.value_pos]
  have hhigh := b.low_pos.le.trans b.low_le_high
  calc value x ≤ b.high * b.high := b.le_high_mul
    _ ≤ b.high * value p := by gcongr

/-! ## The mean -/

theorem sum_nearest : IsNearest (p + x / p) (value p + value (x / p)) := by
  refine h.denotes.add h.cofactor_denotes ?_
  rw [abs_of_nonneg (by linarith [h.reflection_le_cofactor, b.low_pos])]
  linarith [h.le, h.cofactor_le_double, b.high_lt_range]

theorem le_sum : 2 * b.low ≤ value (p + x / p) := by
  obtain ⟨y, hy⟩ := b.exists_low
  obtain ⟨z, hz⟩ := b.exists_double hy le_rfl b.double_low_le
  exact h.sum_nearest.ge hz (by linarith [h.reflection_le_cofactor])

/-- Only the sum is rounded, not its half. -/
theorem step_denotes : Denotes (newtonStep x p) (value (p + x / p) / 2) := by
  refine Denotes.half ⟨h.sum_nearest.finite, rfl⟩ ?_
  linarith [b.range_bottom_le_low, h.le_sum, b.low_pos]

theorem le_step : b.low ≤ value (newtonStep x p) := by
  rw [h.step_denotes.value_eq]
  linarith [h.le_sum]

/-- A step does not go beyond a number that the exact mean does not go beyond. -/
theorem step_le_of_mean {y : Float} {v : ℚ} (hy : Denotes y v) (hge : b.low ≤ v)
    (hle : 2 * v ≤ rangeTop) (hmean : value p + value (x / p) ≤ 2 * v) : value (newtonStep x p) ≤ v := by
  obtain ⟨z, hz⟩ := b.exists_double hy hge hle
  rw [h.step_denotes.value_eq]
  linarith [h.sum_nearest.le_of_le hz hmean]

theorem le_step_of_mean {y : Float} {v : ℚ} (hy : Denotes y v) (hge : b.low ≤ v)
    (hle : 2 * v ≤ rangeTop) (hmean : 2 * v ≤ value p + value (x / p)) :
    v ≤ value (newtonStep x p) := by
  obtain ⟨z, hz⟩ := b.exists_double hy hge hle
  rw [h.step_denotes.value_eq]
  linarith [h.sum_nearest.ge hz hmean]

/-- A step from above the root does not move up. -/
theorem step_le (hge : b.high ≤ value p) : value (newtonStep x p) ≤ value p :=
  h.step_le_of_mean h.denotes h.ge h.le (by linarith [h.cofactor_le_high hge])

/-- A step from above the root that moves leaves at most four fifths of the distance. -/
theorem step_far (hgt : b.high < value p) (hlt : value (newtonStep x p) < value p) :
    value (newtonStep x p) - b.high ≤ 4 / 5 * (value p - b.high) := by
  have hunit := b.unit_pos
  have hmoved := b.add_unit_le ⟨h.step_denotes.finite, rfl⟩ h.denotes h.le_step hlt
  rcases le_or_gt (value p - b.high) (5 * b.unit) with hnear | hfar
  · -- to move is to move by a unit
    linarith
  · -- the rounding error of the sum is at most a unit and a small part of the distance
    have hhigh := b.high_le
    have hcofactor := h.cofactor_le_high hgt.le
    have hreflection := h.reflection_le_cofactor
    have herror := abs_le.mp (h.sum_nearest.error_le
      (by linarith [b.range_bottom_le_low, b.low_pos]) (by linarith [h.le, b.high_lt_range]))
    rw [h.step_denotes.value_eq]
    linarith [herror.1]

/-! ## Steps from the neighbours -/

theorem low_le_cofactor (hp : value p = b.low) : b.low ≤ value (x / p) := by
  linarith [h.reflection_le_cofactor]

/-- Below a power of two the cofactor of the lower neighbour is not above the upper one. -/
theorem cofactor_le_of_full (hp : value p = b.low) (hfull : b.digits + 1 = 2 ^ 53) :
    value (x / p) ≤ b.high := by
  by_contra hgt
  rw [not_le] at hgt
  obtain ⟨y, hy⟩ := b.exists_high
  have hgap := b.add_two_units_le h.cofactor_denotes hfull hgt
  have hmiddle := h.cofactor_nearest.middle_le hy hgt
  rw [hp, le_div_iff₀ b.low_pos] at hmiddle
  have hradicand : (b.high + b.unit) * b.low ≤ value x :=
    (mul_le_mul_of_nonneg_right (by linarith) b.low_pos.le).trans hmiddle
  -- so the radicand lies one cell below the square of the power, where no number lies
  obtain ⟨n, hn, hlt⟩ := b.exists_cells ⟨h.radicand, rfl⟩
  have hdigits : (b.digits : ℤ) = 2 ^ 53 - 1 := by omega
  have hle : (2 ^ 53 + 1) * (2 ^ 53 - 1) ≤ n * 2 ^ 52 := by
    apply b.cells_le_iff.mp
    rw [← hn]
    refine le_of_eq_of_le ?_ hradicand
    have hcast : (b.digits : ℚ) = 2 ^ 53 - 1 := by exact_mod_cast hdigits
    rw [Bracket.high, Bracket.low, hcast]
    push_cast
    ring
  rw [hdigits] at hlt
  omega

theorem cofactor_le_of_low (hp : value p = b.low) : value (x / p) ≤ b.high + b.unit := by
  have hunit := b.unit_pos
  have hlt := b.digits_lt
  by_cases hfull : b.digits + 1 = 2 ^ 53
  · linarith [h.cofactor_le_of_full hp hfull]
  -- the next number but one is a number too
  obtain ⟨y, hy⟩ := b.exists_units (k := b.digits + 2) (by rw [abs_of_nonneg (by omega)]; omega)
  have hnext : ((b.digits + 2 : ℤ) : ℚ) * b.unit = b.high + b.unit := by
    rw [Bracket.high]
    push_cast
    ring
  rw [hnext] at hy
  by_contra hgt
  rw [not_le] at hgt
  have hgap := b.add_unit_le hy h.cofactor_denotes (by linarith [b.low_le_high]) hgt
  have hmiddle := h.cofactor_nearest.middle_le hy hgt
  rw [hp, le_div_iff₀ b.low_pos] at hmiddle
  have hradicand : (b.high + 3 / 2 * b.unit) * b.low ≤ value x :=
    (mul_le_mul_of_nonneg_right (by linarith) b.low_pos.le).trans hmiddle
  have hbelow := b.lt_high_sq
  have hlow := mul_le_mul_of_nonneg_right b.le_low hunit.le
  rw [Bracket.high_eq] at hradicand hbelow
  nlinarith [mul_pos hunit hunit]

/-- A step from the lower neighbour leads to a neighbour. -/
theorem step_le_high (hp : value p = b.low) : value (newtonStep x p) ≤ b.high := by
  obtain ⟨y, hy⟩ := b.exists_high
  apply h.step_le_of_mean hy b.low_le_high b.double_high_le
  rw [hp]
  linarith [h.cofactor_le_of_low hp, b.high_eq]

/-- A step keeps an estimate. -/
theorem step : Approach b (newtonStep x p) := by
  refine ⟨h.radicand, h.step_denotes.finite, h.le_step, ?_⟩
  rcases h.ge.eq_or_lt with hp | hgt
  · linarith [h.step_le_high hp.symm, b.double_high_le]
  · linarith [h.step_le (b.high_le_of_lt h.denotes hgt), h.le]

/-! ## Two neighbours -/

/-- The radicand of a cofactor that is rounded up from the lower neighbour. -/
theorem le_radicand (hp : value p = b.low) (hgt : b.high ≤ value (x / p)) :
    b.low * (b.low + b.high) / 2 ≤ value x := by
  obtain ⟨y, hy⟩ := b.exists_low
  have hunit := b.unit_pos
  have hmiddle := h.cofactor_nearest.middle_le hy (by linarith [b.high_eq])
  rw [hp, le_div_iff₀ b.low_pos] at hmiddle
  refine le_trans ?_ hmiddle
  calc b.low * (b.low + b.high) / 2 = (b.high + b.low) / 2 * b.low := by ring
    _ ≤ (value (x / p) + b.low) / 2 * b.low :=
      mul_le_mul_of_nonneg_right (by linarith) b.low_pos.le

/-- The radicand of a cofactor that is rounded down from the upper neighbour. -/
theorem radicand_le (hp : value p = b.high) (hle : value (x / p) ≤ b.low) :
    value x ≤ b.high * (b.low + b.high) / 2 := by
  obtain ⟨y, hy⟩ := b.exists_high
  have hunit := b.unit_pos
  have hhigh : 0 < b.high := b.low_pos.trans_le b.low_le_high
  have hmiddle := h.cofactor_nearest.le_middle hy (by linarith [b.high_eq])
  rw [hp, div_le_iff₀ hhigh] at hmiddle
  refine hmiddle.trans ?_
  calc (value (x / p) + b.high) / 2 * b.high ≤ (b.low + b.high) / 2 * b.high :=
        mul_le_mul_of_nonneg_right (by linarith) hhigh.le
    _ = b.high * (b.low + b.high) / 2 := by ring

theorem low_le_cofactor_of_high (hp : value p = b.high)
    (hx : b.low * (b.low + b.high) / 2 ≤ value x) : b.low ≤ value (x / p) := by
  obtain ⟨y, hy⟩ := b.exists_low
  have hunit := b.unit_pos
  have hhigh : 0 < b.high := b.low_pos.trans_le b.low_le_high
  rcases b.full.eq_or_lt with hpower | hfull
  · -- the lower neighbour is a power of two, so the radicand is its product with the upper one
    apply h.cofactor_nearest.ge hy
    rw [hp, le_div_iff₀ hhigh]
    obtain ⟨n, hn, -⟩ := b.exists_cells ⟨h.radicand, rfl⟩
    have hcast : (b.digits : ℚ) = 2 ^ 52 := by exact_mod_cast hpower.symm
    have hle : (2 ^ 52 * (2 ^ 53 + 1) : ℤ) ≤ 2 * (n * 2 ^ 52) := by
      apply b.cells_le_iff.mp
      rw [Int.cast_mul 2, mul_assoc, ← hn]
      rw [Bracket.high, Bracket.low, hcast] at hx
      push_cast
      linarith
    have hcells : (2 ^ 52 * (2 ^ 52 + 1) : ℤ) ≤ n * 2 ^ 52 := by omega
    refine le_of_eq_of_le ?_ ((b.cells_le_iff.mpr hcells).trans_eq hn.symm)
    rw [Bracket.high, Bracket.low, hcast]
    push_cast
    ring
  · by_contra hlt
    rw [not_le] at hlt
    have hgap := b.le_sub_unit h.cofactor_denotes hfull hlt
    have hmiddle := h.cofactor_nearest.le_middle hy hlt
    rw [hp, div_le_iff₀ hhigh] at hmiddle
    have hbound : value x ≤ (b.low - b.unit / 2) * b.high :=
      hmiddle.trans (mul_le_mul_of_nonneg_right (by linarith) hhigh.le)
    rw [b.high_eq] at hx hbound
    linarith [mul_pos hunit hunit]

theorem cofactor_le_high_of_low (hp : value p = b.low)
    (hx : value x ≤ b.high * (b.low + b.high) / 2) : value (x / p) ≤ b.high := by
  by_cases hpower : b.digits + 1 = 2 ^ 53
  · exact h.cofactor_le_of_full hp hpower
  obtain ⟨y, hy⟩ := b.exists_high
  by_contra hgt
  rw [not_le] at hgt
  have hgap := b.add_unit_le hy h.cofactor_denotes b.low_le_high hgt
  have hmiddle := h.cofactor_nearest.middle_le hy hgt
  rw [hp, le_div_iff₀ b.low_pos] at hmiddle
  have hbound : (b.high + b.unit / 2) * b.low ≤ value x :=
    (mul_le_mul_of_nonneg_right (by linarith) b.low_pos.le).trans hmiddle
  obtain ⟨n, hn, -⟩ := b.exists_cells ⟨h.radicand, rfl⟩
  have hlo : (b.digits * (2 * b.digits + 3) : ℤ) ≤ 2 * (n * 2 ^ 52) := by
    apply b.cells_le_iff.mp
    rw [Int.cast_mul 2, mul_assoc, ← hn]
    rw [Bracket.high, Bracket.low] at hbound
    push_cast
    linarith
  have hhi : 2 * (n * 2 ^ 52) ≤ ((b.digits + 1) * (2 * b.digits + 1) : ℤ) := by
    apply b.cells_le_iff.mp
    rw [Int.cast_mul 2, mul_assoc, ← hn]
    rw [Bracket.high, Bracket.low] at hx
    push_cast
    linarith
  exact b.no_cells hpower hlo hhi

end Step

/-- Steps do not lead from each neighbour to the other. -/
theorem no_cycle {x p r : Float} {b : Bracket (value x)} (h : Approach b p) (h' : Approach b r)
    (hp : value p = b.low) (hr : value r = b.high) (hup : value (newtonStep x p) = b.high) :
    value (newtonStep x r) ≠ b.low := by
  intro hdown
  have hunit := b.unit_pos
  have hhigh := b.high_eq
  obtain ⟨y, hy⟩ := b.exists_low
  obtain ⟨z, hz⟩ := b.exists_high
  -- a cofactor equal to the estimate would keep it
  have hcofactor : b.high ≤ value (x / p) := by
    by_contra hlt
    rw [not_le] at hlt
    have hle := h.step_le_of_mean hy le_rfl b.double_low_le (by
      rcases (h.low_le_cofactor hp).eq_or_lt with heq | hgt
      · linarith
      · linarith [b.high_le_of_lt h.cofactor_denotes hgt])
    linarith
  have hcofactor' : value (x / r) ≤ b.low := by
    by_contra hgt
    rw [not_le] at hgt
    have hge := h'.le_step_of_mean hz b.low_le_high b.double_high_le
      (by linarith [b.high_le_of_lt h'.cofactor_denotes hgt])
    linarith
  have hx := h.le_radicand hp hcofactor
  have hx' := h'.radicand_le hr hcofactor'
  have hpr : Denotes (x / p) b.high :=
    ⟨h.cofactor_nearest.finite, le_antisymm (h.cofactor_le_high_of_low hp hx') hcofactor⟩
  have hrp : Denotes (x / r) b.low :=
    ⟨h'.cofactor_nearest.finite, le_antisymm hcofactor' (h'.low_le_cofactor_of_high hr hx)⟩
  -- the two sums are of the same two numbers
  have hsame : newtonStep x p = newtonStep x r := by
    rw [newtonStep, newtonStep, hpr.eq ⟨h'.finite, hr⟩ (by linarith [b.low_pos]),
      hrp.eq ⟨h.finite, hp⟩ b.low_pos.ne', float_add_comm]
  rw [hsame, hdown] at hup
  linarith

end Approach
end Trinomial.Number
