import Trinomial.Proofs.Number.Convergence

/-! # The error of a square root

The iteration stops after a step that moves by less than the tolerance. In exact arithmetic the square of
what it finds is off by the square of that move; the rounding of the quotient and of the sum adds an error
that is small beside the radicand. So a root squared is within the tolerance of the radicand, or within
that part of the radicand where the radicand is larger than one.
-/
set_option autoImplicit false

namespace Trinomial.Number

/-! ## The error of one step -/

section Error
variable {x p c r t u : ℚ}

/-- A step from `p` with cofactor `c`, both rounded with relative error `u`, that moves by at most `t`. -/
theorem square_error (hp : 0 < p) (hx : 0 ≤ x) (hu : 0 ≤ u) (hu' : u ≤ 1 / 8)
    (hcofactor : |x / p - c| ≤ x / p * u) (hsum : |p + c - 2 * r| ≤ (p + c) * u)
    (hmoved : |r - p| ≤ t) : |r ^ 2 - x| ≤ t ^ 2 + (7 * x + 16 * t ^ 2) * u := by
  obtain ⟨q, hq⟩ : ∃ q, q = x / p := ⟨_, rfl⟩
  have hqp : p * q = x := by rw [hq, mul_div_cancel₀ _ hp.ne']
  have hq0 : 0 ≤ q := hq ▸ div_nonneg hx hp.le
  rw [← hq] at hcofactor
  have hqu : q * u ≤ q / 8 := by
    linarith [mul_le_mul_of_nonneg_left hu' hq0]
  have hc := abs_le.mp hcofactor
  have hround : |2 * r - p - q| ≤ (p + 3 * q) * u := by
    have hcu : (p + c) * u ≤ (p + 2 * q) * u := mul_le_mul_of_nonneg_right (by linarith) hu
    calc |2 * r - p - q| = |-(p + c - 2 * r) - (q - c)| := by ring_nf
      _ ≤ |p + c - 2 * r| + |q - c| := by
        have h := abs_sub (-(p + c - 2 * r)) (q - c)
        rwa [abs_neg] at h
      _ ≤ (p + 2 * q) * u + q * u := add_le_add (hsum.trans hcu) hcofactor
      _ = (p + 3 * q) * u := by ring
  -- the estimate is hardly larger than its cofactor
  have hp_le : p ≤ 2 * q + 4 * t := by
    have hsmall : (p + 3 * q) * u ≤ (p + 3 * q) * (1 / 8) :=
      mul_le_mul_of_nonneg_left hu' (by linarith)
    have h := abs_le.mp hround
    have h' := abs_le.mp hmoved
    linarith
  have hsquare : p ^ 2 ≤ 4 * x + 16 * t ^ 2 := by
    have h := mul_le_mul_of_nonneg_left hp_le hp.le
    nlinarith [sq_nonneg (p - 4 * t)]
  have hexact : r ^ 2 - x = (r - p) ^ 2 + p * (2 * r - p - q) := by
    rw [← hqp]
    ring
  calc |r ^ 2 - x| ≤ |(r - p) ^ 2| + |p * (2 * r - p - q)| := hexact ▸ abs_add_le _ _
    _ ≤ t ^ 2 + p * ((p + 3 * q) * u) := by
      rw [abs_mul, abs_of_pos hp, abs_pow]
      gcongr
    _ = t ^ 2 + (p ^ 2 + 3 * x) * u := by
      rw [← hqp]
      ring
    _ ≤ t ^ 2 + (7 * x + 16 * t ^ 2) * u := by
      exact add_le_add_right (mul_le_mul_of_nonneg_right (by linarith) hu) _

/-- So small a move and so small rounding errors leave less than the tolerance. -/
theorem error_lt (hx : 0 ≤ x) (hlo : 2 ^ (-40 : ℤ) ≤ t) (hhi : t < 1 / 2 ^ 30) :
    t ^ 2 + (7 * x + 16 * t ^ 2) / 2 ^ 53 < t * max 1 x := by
  have hone := le_max_left 1 x
  have hmax := le_max_right 1 x
  generalize max 1 x = m at hone hmax
  have hlo' : 1 / 2 ^ 40 ≤ t := le_of_eq_of_le (by norm_num) hlo
  have ht : t ^ 2 ≤ t / 2 ^ 30 := by nlinarith
  have htm : t ≤ t * m := le_mul_of_one_le_right (by linarith) hone
  have hxm : x / 2 ^ 40 ≤ t * m := by
    calc x / 2 ^ 40 = 1 / 2 ^ 40 * x := by ring
      _ ≤ t * m := mul_le_mul hlo' hmax hx (by linarith)
  linarith

end Error

/-! ## The last step of an iteration -/

/-- A step from `p`: what it rounds, and that it moves by less than the tolerance. -/
structure LastStep (x p : Float) : Prop where
  finite : (newtonStep x p).isFinite = true
  pos : 0 < value p
  cofactor : |value x / value p - value (x / p)| ≤ value x / value p / 2 ^ 53
  sum : |value p + value (x / p) - 2 * value (newtonStep x p)| ≤ (value p + value (x / p)) / 2 ^ 53
  moved : |value (newtonStep x p) - value p| < value tolerance

section Last
variable {x p z : Float} {q : ℚ}

/-- A rounded difference that is small comes from a difference that is small. -/
theorem lt_of_nearest_small (h : IsNearest z q) (hz : z.abs < tolerance) : |q| < value tolerance := by
  have htol : Denotes tolerance (value tolerance) := ⟨tolerance_finite, rfl⟩
  rw [small_iff ⟨h.finite, rfl⟩, abs_lt] at hz
  rw [abs_lt]
  constructor
  · by_contra hle
    linarith [h.le_of_le htol.neg (not_lt.mp hle)]
  · by_contra hge
    linarith [h.ge htol (not_lt.mp hge)]

theorem LastStep.error (h : LastStep x p) (hx : 0 ≤ value x) :
    |value (newtonStep x p) ^ 2 - value x| < value tolerance * max 1 (value x) := by
  have herror := square_error h.pos hx (by positivity) (by norm_num : (1 / 2 ^ 53 : ℚ) ≤ 1 / 8)
    (by rw [mul_one_div]; exact h.cofactor) (by rw [mul_one_div]; exact h.sum) h.moved.le
  rw [mul_one_div] at herror
  exact herror.trans_lt (error_lt hx tolerance_value.1 tolerance_value.2)

/-! ### From an estimate -/

theorem Bracket.low_ge {v : ℚ} (b : Bracket v) (hv : 2 ^ (-40 : ℤ) ≤ v) : 1 / 2 ^ 21 ≤ b.low := by
  by_contra hlt
  rw [not_le] at hlt
  have hhigh : b.high ^ 2 ≤ (1 / 2 ^ 20) ^ 2 :=
    pow_le_pow_left₀ (b.low_pos.le.trans b.low_le_high) (by linarith [b.high_le_double]) 2
  have hsquare : ((1 / 2 ^ 20) ^ 2 : ℚ) = 2 ^ (-40 : ℤ) := by norm_num
  exact absurd (hv.trans_lt b.lt_high_sq) (hhigh.trans_eq hsquare).not_gt

theorem Approach.sum_error {b : Bracket (value x)} (h : Approach b p) :
    |value p + value (x / p) - 2 * value (newtonStep x p)| ≤ (value p + value (x / p)) / 2 ^ 53 := by
  have hcofactor := h.reflection_le_cofactor
  have hlow := b.low_pos
  rw [h.step_denotes.value_eq, mul_div_cancel₀ _ two_ne_zero]
  apply h.sum_nearest.error_le
  · linarith [b.range_bottom_le_low]
  · linarith [h.le, h.cofactor_le_double, b.high_lt_range]

/-- An estimate that a step hardly moves has a cofactor far above the subnormal numbers. -/
theorem Approach.last_step {b : Bracket (value x)} (h : Approach b p) (hx : 2 ^ (-40 : ℤ) ≤ value x)
    (hstop : (newtonStep x p - p).abs < tolerance) : LastStep x p := by
  have hlow := b.low_ge hx
  have hge := h.ge
  have hsum := h.sum_error
  have hmoved : |value (newtonStep x p) - value p| < value tolerance := by
    refine lt_of_nearest_small (h.step.denotes.sub h.denotes ?_) hstop
    rw [abs_sub_lt_iff]
    constructor <;> linarith [h.le, h.step.le, h.value_pos, h.step.value_pos]
  have hcofactor : 1 / 2 ^ 23 < value (x / p) := by
    have hround := abs_le.mp hsum
    have hmove := abs_lt.mp hmoved
    linarith [tolerance_value.2]
  have hquotient : rangeBottom ≤ value x / value p := by
    refine range_bottom_le (k := -23) ?_ (by norm_num)
    by_contra hlt
    obtain ⟨y, hy⟩ := exists_dyadic (k := 1) (e := -23) (by norm_num) (by norm_num) (by norm_num)
    rw [Int.cast_one, one_mul] at hy
    have hle := h.cofactor_nearest.le_of_le hy (not_le.mp hlt).le
    rw [zpow_neg, ← one_div] at hle
    exact absurd hle (not_le.mpr (by exact_mod_cast hcofactor))
  refine ⟨h.step.finite, h.value_pos, ?_, hsum, hmoved⟩
  apply h.cofactor_nearest.error_le hquotient
  linarith [h.quotient_le, b.high_lt_range, b.low_pos, b.low_le_high]

/-! ### From half the radicand -/

theorem first_last_step (hx : x.isFinite = true) (hlo : 2 ^ (-40 : ℤ) ≤ value x)
    (hstop : (newtonStep x (x / 2.0) - x / 2.0).abs < tolerance) : LastStep x (x / 2.0) := by
  have hbottom := range_bottom_le hlo (by norm_num)
  have hpos := range_bottom_pos.trans_le hbottom
  have hhalf := Denotes.half ⟨hx, rfl⟩ hbottom
  have hrange := Denotes.half_lt_range ⟨hx, rfl⟩ hbottom
  have hcofactor := first_cofactor hx hbottom
  have hsum := first_sum hx hbottom
  have hstep := first_step_denotes hx hbottom
  have hquotient : value x / (value x / 2) = 2 := by field_simp
  refine ⟨hstep.finite, ?_, ?_, ?_, ?_⟩
  · rw [hhalf.value_eq]
    exact half_pos hpos
  · rw [hhalf.value_eq, hcofactor.value_eq, hquotient, sub_self, abs_zero]
    norm_num
  · rw [hhalf.value_eq, hcofactor.value_eq, hstep.value_eq, mul_div_cancel₀ _ two_ne_zero]
    exact hsum.error_le (range_bottom_le_of_one (by linarith)) hrange
  · refine lt_of_nearest_small (Denotes.sub ⟨hstep.finite, rfl⟩ ⟨hhalf.finite, rfl⟩ ?_) hstop
    have htwo := hsum.ge denotes_two (by linarith)
    have htop := first_sum_le hx hbottom
    rw [hstep.value_eq, hhalf.value_eq, abs_sub_lt_iff]
    constructor <;> linarith

end Last

/-! ## The whole iteration -/

section Run
variable {x p r : Float} {steps : ℕ} {inv : Float → Prop}

/-- What an iteration finds is a step from an estimate that the step hardly moves; what holds of the
first estimate and is kept by steps holds of that one. -/
theorem newton_last (keeps : ∀ p, inv p → inv (newtonStep x p)) (hp : inv p)
    (h : newton x steps p = some r) :
    ∃ q, inv q ∧ newtonStep x q = r ∧ (newtonStep x q - q).abs < tolerance := by
  induction steps generalizing p with
  | zero => cases h
  | succ steps ih =>
    rw [newton] at h
    split_ifs at h with hstop
    · exact ⟨p, hp, Option.some.inj h, hstop⟩
    · exact ih (keeps p hp) h

/-- The root of what counts is not below the neighbours of the exact root, and it comes from a last
step. -/
theorem exists_last_step (hcounts : isNegligible x = false) (h : squareRoot x = .ok r) :
    2 ^ (-40 : ℤ) ≤ value x ∧ (∃ b : Bracket (value x), Approach b r) ∧
      ∃ p, LastStep x p ∧ newtonStep x p = r := by
  have hx := (finite_of_square_root h).1
  rw [squareRoot, hcounts, if_neg Bool.false_ne_true] at h
  split_ifs at h with hnonneg
  have hlo := value_ge_of_counts hx hnonneg hcounts
  have hbottom := range_bottom_le hlo (by norm_num)
  obtain ⟨b⟩ := exists_bracket hlo (by linarith [Denotes.half_lt_range ⟨hx, rfl⟩ hbottom])
  have keeps (p : Float) (hp : p = x / 2.0 ∨ Approach b p) :
      newtonStep x p = x / 2.0 ∨ Approach b (newtonStep x p) := by
    rcases hp with rfl | hp
    · exact .inr (first_approach b hx hbottom)
    · exact .inr hp.step
  split at h
  · rename_i hnewton
    cases h
    obtain ⟨p, hp, hr, hstop⟩ := newton_last keeps (.inl rfl) hnewton
    rcases hp with rfl | hp
    · exact ⟨hlo, ⟨b, hr ▸ first_approach b hx hbottom⟩, _, first_last_step hx hlo hstop, hr⟩
    · exact ⟨hlo, ⟨b, hr ▸ hp.step⟩, p, hp.last_step hlo hstop, hr⟩
  · cases h

/-- A root squared is the radicand, roughly. -/
theorem root_bounds (hcounts : isNegligible x = false) (h : squareRoot x = .ok r) :
    0 < value r ∧ value x ≤ 17 / 16 * value r ^ 2 ∧
      value r ^ 2 ≤ value x + value tolerance * max 1 (value x) := by
  obtain ⟨hlo, ⟨bracket, hr⟩, p, hlast, rfl⟩ := exists_last_step hcounts h
  have hx : 0 ≤ value x := (by positivity : (0 : ℚ) ≤ 2 ^ (-40 : ℤ)).trans hlo
  have hlow := bracket.low_pos
  have hroot := hr.ge
  have hhigh : bracket.high ≤ 65 / 64 * bracket.low := by
    rw [bracket.high_eq]
    linarith [bracket.le_low, bracket.unit_pos]
  refine ⟨hr.value_pos, ?_, ?_⟩
  · calc value x ≤ bracket.high ^ 2 := bracket.lt_high_sq.le
      _ ≤ (65 / 64 * value (newtonStep x p)) ^ 2 :=
        pow_le_pow_left₀ (hlow.le.trans bracket.low_le_high) (by linarith) 2
      _ = (65 / 64) ^ 2 * value (newtonStep x p) ^ 2 := mul_pow _ _ _
      _ ≤ 17 / 16 * value (newtonStep x p) ^ 2 :=
        mul_le_mul_of_nonneg_right (by norm_num) (sq_nonneg _)
  · linarith [(abs_lt.mp (hlast.error hx)).2]

end Run

/-- A root squared is the radicand, up to the tolerance or up to that part of the radicand; the root of
what is below the tolerance is zero. -/
theorem square_root_accurate {x r : Float} (hx : x.isFinite = true) (hnonneg : 0.0 ≤ x)
    (h : squareRoot x = .ok r) :
    r.isFinite = true ∧ |value r ^ 2 - value x| < value tolerance * max 1 (value x) ∧
      (x < tolerance → r = 0.0) := by
  have hdenotes : Denotes x (value x) := ⟨hx, rfl⟩
  have hvalue : 0 ≤ value x := by
    rw [← not_lt, ← hdenotes.lt_iff denotes_zero_point]
    exact not_lt_of_le hnonneg
  refine ⟨(finite_of_square_root h).2, ?_⟩
  have hsmall : x < tolerance ↔ value x < value tolerance := lt_iff_value hx tolerance_finite
  rw [hsmall]
  cases hcounts : isNegligible x with
  | true =>
    rw [squareRoot, hcounts, if_pos rfl] at h
    cases h
    rw [is_negligible_eq, decide_eq_true_iff, small_iff hdenotes, abs_of_nonneg hvalue] at hcounts
    refine ⟨?_, fun _ => rfl⟩
    rw [denotes_zero_point.value_eq, zero_pow two_ne_zero, zero_sub, abs_neg, abs_of_nonneg hvalue]
    exact hcounts.trans_le (le_mul_of_one_le_right tolerance_pos.le (le_max_left _ _))
  | false =>
    obtain ⟨-, -, p, hlast, rfl⟩ := exists_last_step hcounts h
    rw [counts_iff hdenotes, abs_of_nonneg hvalue] at hcounts
    exact ⟨hlast.error hvalue, fun hlt => absurd hlt hcounts.not_gt⟩

theorem square_root_accurate_two :
    ((2.0 : Float).isFinite = true ∧ 0.0 ≤ (2.0 : Float) ∧
      squareRoot 2.0 = .ok 1.414213562373095) ∧
    (1.414213562373095 : Float).isFinite = true ∧
      |value 1.414213562373095 ^ 2 - value 2.0| < value tolerance * max 1 (value 2.0) ∧
      ((2.0 : Float) < tolerance → (1.414213562373095 : Float) = 0.0) := by
  have h : (2.0 : Float).isFinite = true ∧ 0.0 ≤ (2.0 : Float) ∧
      squareRoot 2.0 = .ok 1.414213562373095 := by decide +kernel
  exact ⟨h, square_root_accurate h.1 h.2.1 h.2.2⟩

end Trinomial.Number
