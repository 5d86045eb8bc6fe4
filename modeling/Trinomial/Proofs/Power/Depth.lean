import Trinomial.Proofs.Power.Calls

/-! # The depth of a power

An exponent below 1 is a multiple of some power of two, and doubling moves its bits above the point, where
lowering takes them away; so the calls of such a power end when no bit is left. Lowering reaches an
exponent below 1 from one below 10, and halving reaches one below 10 from any other.
-/
set_option autoImplicit false

namespace Trinomial.Number.Call
variable {c : Call}

/-- The exponent is below `bound` and a multiple of the `k`-th power of a half. -/
structure Fraction (k : ℕ) (bound : ℚ) (c : Call) : Prop where
  positive : c.Positive
  nonneg : 0 ≤ value c.exponent
  lt : value c.exponent < bound
  multiple : ∃ j : ℤ, value c.exponent * 2 ^ k = j

theorem ends_of_settled (h : c.settled = true) (depth : ℕ) : c.Ends (depth + 1) :=
  ⟨_, result_settled h depth⟩

/-- A call that makes no other one has a result. -/
theorem ends_of_nested {depth : ℕ} (h : ∀ inner, c.nested = some inner → inner.Ends depth) :
    c.Ends (depth + 1) := ends_succ.mpr h

section Fraction
variable {k : ℕ} {bound : ℚ} {inner : Call}

theorem Fraction.whole (h : Fraction 0 1 c) : c.settled = true := by
  obtain ⟨j, hj⟩ := h.multiple
  have hlo := h.nonneg
  have hlt := h.lt
  rw [pow_zero, mul_one] at hj
  have hzero : j = 0 := by
    rw [hj] at hlo hlt
    have hlo' : 0 ≤ j := by exact_mod_cast hlo
    have hlt' : j < 1 := by exact_mod_cast hlt
    omega
  rw [h.positive.settled_eq, ← Bool.not_eq_false, counts_iff h.positive.denotes, hj, hzero]
  have hpos := tolerance_pos
  rw [Int.cast_zero, abs_zero]
  exact not_le.mpr hpos

/-- A call below 1 moves one bit above the point. -/
theorem Fraction.doubled (h : Fraction (k + 1) 1 c) (hnested : c.nested = some inner) :
    Fraction k 2 inner := by
  have hlo := h.nonneg
  have hlt := h.lt
  cases h.positive.rule hnested with
  | inverse hneg => exact absurd hneg (not_lt.mpr hlo)
  | halve hge => linarith
  | lower hge => linarith
  | double _ _ hinner =>
    refine ⟨h.positive.nested_positive hnested, ?_, ?_, ?_⟩
    · rw [hinner.value_eq]
      linarith
    · rw [hinner.value_eq]
      linarith
    · obtain ⟨j, hj⟩ := h.multiple
      exact ⟨j, by rw [hinner.value_eq, ← hj, pow_succ]; ring⟩

/-- A call from 1 on takes a bit away. -/
theorem Fraction.lowered (h : Fraction k (bound + 1) c) (hge : 1 ≤ value c.exponent)
    (hbound : bound ≤ 9) (hnested : c.nested = some inner) : Fraction k bound inner := by
  have hlt := h.lt
  cases h.positive.rule hnested with
  | inverse hneg => linarith
  | halve hge => linarith
  | double _ hlt => linarith
  | lower _ _ hinner =>
    refine ⟨h.positive.nested_positive hnested, ?_, ?_, ?_⟩
    · rw [hinner.value_eq]
      linarith
    · rw [hinner.value_eq]
      linarith
    · obtain ⟨j, hj⟩ := h.multiple
      exact ⟨j - 2 ^ k, by rw [hinner.value_eq, sub_mul, hj]; push_cast; ring⟩

theorem ends_fraction (h : Fraction k 1 c) : c.Ends (2 * k + 1) := by
  induction k generalizing c with
  | zero => exact ends_of_settled h.whole 0
  | succ k ih =>
    refine ends_of_nested fun inner hinner => ?_
    have hinner := h.doubled hinner
    rcases lt_or_ge (value inner.exponent) 1 with hlt | hge
    · exact (ih ⟨hinner.positive, hinner.nonneg, hlt, hinner.multiple⟩).mono (by omega)
    · exact ends_of_nested fun lowered hlowered =>
        ih (Fraction.lowered (by norm_num; exact hinner) hge (by norm_num) hlowered)

theorem ends_below {n : ℕ} (h : Fraction k (n + 1) c) (hn : n ≤ 9) : c.Ends (2 * k + 1 + n) := by
  induction n generalizing c with
  | zero => exact ends_fraction (by simpa using h)
  | succ n ih =>
    rcases lt_or_ge (value c.exponent) 1 with hlt | hge
    · exact (ends_fraction ⟨h.positive, h.nonneg, hlt, h.multiple⟩).mono (by omega)
    · rw [Nat.cast_succ] at h
      refine ends_of_nested fun inner hinner => ih (h.lowered hge ?_ hinner) (by omega)
      exact_mod_cast hn

end Fraction

/-! ## Every exponent -/

/-- Exponents that count are multiples of the ninety-second power of a half. -/
theorem exponent_multiple {x : Float} {q : ℚ} (h : Denotes x q) (hlo : value tolerance ≤ q) :
    ∃ j : ℤ, q * 2 ^ 92 = j := by
  obtain ⟨j, hj⟩ := h.dyadic (tolerance_value.1.trans hlo)
  refine ⟨j, ?_⟩
  rw [hj, mul_assoc, ← zpow_natCast, ← zpow_add₀ (by norm_num)]
  norm_num

theorem ends_below_ten (h : c.Positive) (hlo : 0 ≤ value c.exponent) (hlt : value c.exponent < 10) :
    c.Ends 194 := by
  cases hsettled : c.settled with
  | true => exact ends_of_settled hsettled 193
  | false =>
    rw [h.settled_eq, counts_iff h.denotes, abs_of_nonneg hlo] at hsettled
    have hfraction : Fraction 92 ((9 : ℕ) + 1) c :=
      ⟨h, hlo, by norm_num; exact hlt, exponent_multiple h.denotes hsettled⟩
    exact ends_below hfraction (by norm_num)

theorem ends_nonneg {n : ℕ} (h : c.Positive) (hlo : 0 ≤ value c.exponent)
    (hlt : value c.exponent < 10 * 2 ^ n) : c.Ends (194 + n) := by
  induction n generalizing c with
  | zero => exact ends_below_ten h hlo (by simpa using hlt)
  | succ n ih =>
    rcases lt_or_ge (value c.exponent) 10 with hten | hge
    · exact (ends_below_ten h hlo hten).mono (by omega)
    · refine ends_of_nested fun inner hnested => ih (h.nested_positive hnested) ?_ ?_
      all_goals
        cases h.rule hnested with
        | inverse hneg => linarith
        | lower _ hten => linarith
        | double _ hone => linarith
        | halve _ hinner =>
          rw [hinner.value_eq]
          rw [pow_succ] at hlt
          linarith

theorem value_lt {x : Float} (h : x.isFinite = true) : value x < 10 * 2 ^ 1021 := by
  have htop : rangeTop = 2 ^ 1021 * 2 ^ 2 := pow_add 2 1021 2
  have hone : (1 : ℚ) ≤ 2 ^ 1021 := one_le_pow₀ one_le_two
  generalize (2 : ℚ) ^ 1021 = top at htop hone ⊢
  rcases lt_or_ge (value x) 1 with hlt | hge
  · linarith
  · have hhalf := Denotes.half_lt_range ⟨h, rfl⟩ (range_bottom_le_of_one hge)
    rw [htop] at hhalf
    linarith

theorem ends_positive (h : c.Positive) : c.Ends 1216 := by
  rcases lt_or_ge (value c.exponent) 0 with hneg | hnonneg
  · refine ends_of_nested fun inner hnested =>
      ends_nonneg (n := 1021) (h.nested_positive hnested) ?_ (value_lt ?_)
    · cases h.rule hnested with
      | inverse _ hinner => rw [hinner.value_eq]; linarith
      | halve hge => linarith
      | lower hge => linarith
      | double hge => linarith [tolerance_pos]
    · exact (h.nested_positive hnested).finite
  · exact (ends_nonneg h hnonneg (value_lt h.finite)).mono (by norm_num)

/-- Every call ends. -/
theorem ends (c : Call) : c.Ends 1216 := by
  cases hsettled : c.settled with
  | true => exact ends_of_settled hsettled 1215
  | false =>
    have h := ends_positive (absolute_positive hsettled)
    rw [ends_succ] at h ⊢
    rwa [absolute_nested hsettled] at h

/-- No call needs more nested calls than a power may have. -/
theorem exists_run (c : Call) : ∃ run,
    powerWithin powerDepth c.base c.exponent c.epsilon = some run ∧ Gives c run.result := by
  obtain ⟨r, hr⟩ : c.Ends powerDepth := c.ends.mono (by decide)
  have hgives := gives_of_result hr
  obtain ⟨run, hrun, rfl⟩ := Option.map_eq_some_iff.mp hr
  exact ⟨run, hrun, hgives⟩

end Trinomial.Number.Call

namespace Trinomial.Number
open Call

/-- A power is what its outermost call comes to. -/
theorem power_gives (base exponent : Float) :
    Gives ⟨base, exponent, tolerance⟩ (power base exponent).result := by
  obtain ⟨run, hrun, hgives⟩ := exists_run ⟨base, exponent, tolerance⟩
  rw [power, hrun]
  exact hgives

theorem power_eq_iff {base exponent : Float} {r : Except Failure Float} :
    (power base exponent).result = r ↔ Gives ⟨base, exponent, tolerance⟩ r :=
  ⟨fun h => h ▸ power_gives base exponent, fun h => (power_gives base exponent).unique h⟩

end Trinomial.Number
