import Trinomial.Proofs.Number.Unsigned

/-! # Outcomes of the square root

A square root is found, or its radicand is below zero, or the iteration is not on a finite radicand and uses
up its steps. What is found is finite and not below zero, and it is an estimate near the one before it.
-/
set_option autoImplicit false

namespace Trinomial.Number
open Float.Model

variable {x p r : Float}

/-! ## The iteration -/

/-- What an iteration finds is the step from an estimate that the step hardly moves. -/
theorem newton_found {steps : ℕ} (h : newton x steps p = some r) :
    ∃ n < steps, newtonStep x ((newtonStep x)^[n] p) = r ∧
      (r - (newtonStep x)^[n] p).abs < tolerance := by
  induction steps generalizing p with
  | zero => cases h
  | succ steps ih =>
    rw [newton] at h
    split_ifs at h with hstop
    · obtain rfl := Option.some.inj h
      exact ⟨0, Nat.succ_pos steps, rfl, hstop⟩
    · obtain ⟨n, hn, hr, hstop⟩ := ih h
      exact ⟨n + 1, Nat.succ_lt_succ hn, hr, hstop⟩

/-- On a radicand that is not finite the iteration never ends. -/
theorem newton_not_finite (hx : x.isFinite = false) (steps : ℕ) (p : Float) : newton x steps p = none := by
  cases h : newton x steps p with
  | none => rfl
  | some r =>
    rw [(finite_of_newton h).1] at hx
    cases hx

/-! ## Radicands -/

theorem parts_infinity : parts (1.0 / 0.0) = .infinity .positive := by rfl

/-- What has no minus sign and is not finite is infinity or not a number. -/
theorem infinite_of_unsigned (hsign : isNegative x = false) (hx : x.isFinite = false) :
    x.isNaN = true ∨ x = 1.0 / 0.0 := by
  have hunsigned := unsigned_of_is_negative hsign
  change (parts x).isFinite = false at hx
  change (parts x).isNaN = true ∨ _
  cases hp : parts x with
  | notANumber => exact .inl rfl
  | infinity s =>
    rw [hp] at hunsigned
    cases hunsigned
    exact .inr (eq_of_parts (hp.trans parts_infinity.symm))
  | zero s =>
    rw [hp] at hx
    cases hx
  | finite s m e hm =>
    rw [hp] at hx
    cases hx

theorem not_finite_of_infinite (h : x.isNaN = true ∨ x = 1.0 / 0.0) :
    x.isFinite = false ∧ ¬x < 0.0 := by
  rcases h with hnan | rfl
  · refine ⟨not_finite_of_special (.inr hnan), fun hlt => ?_⟩
    rw [(is_nan_of_lt hlt).1] at hnan
    cases hnan
  · decide

/-! ## Outcomes -/

theorem square_root_of_counts (hneg : ¬x < 0.0) (hcounts : isNegligible x = false) :
    squareRoot x = (newton x rootSteps (x / 2.0)).elim (.error (.noConvergence x rootSteps)) .ok := by
  rw [squareRoot, hcounts, if_neg Bool.false_ne_true, if_neg hneg]
  cases newton x rootSteps (x / 2.0) <;> rfl

theorem square_root_below_zero_iff {cause : DomainFault} :
    squareRoot x = .error (.outsideDomain cause) ↔
      cause = .rootOfNegative x ∧ x < 0.0 ∧ isNegligible x = false := by
  cases hcounts : isNegligible x with
  | true => simp [square_root_negligible hcounts]
  | false =>
    by_cases hneg : x < 0.0
    · rw [squareRoot, hcounts, if_neg Bool.false_ne_true, if_pos hneg]
      simp [hneg, eq_comm]
    · rw [square_root_of_counts hneg hcounts]
      cases newton x rootSteps (x / 2.0) <;> simp [hneg]

theorem square_root_used_up_iff :
    squareRoot x = .error (.noConvergence x rootSteps) ↔ x.isNaN = true ∨ x = 1.0 / 0.0 := by
  constructor
  · intro h
    have hcounts : isNegligible x = false := by
      rw [← Bool.not_eq_true]
      intro hnegligible
      rw [square_root_negligible hnegligible] at h
      cases h
    have hneg : ¬x < 0.0 := by
      intro hneg
      rw [square_root_below_zero_iff.mpr ⟨rfl, hneg, hcounts⟩] at h
      cases h
    have hsign := unsigned_of_counts hneg hcounts
    refine infinite_of_unsigned hsign ?_
    rw [← Bool.not_eq_true]
    intro hfinite
    obtain ⟨r, hr, -⟩ := square_root_finite hsign hfinite hcounts
    rw [hr] at h
    cases h
  · intro h
    obtain ⟨hfinite, hneg⟩ := not_finite_of_infinite h
    have hcounts : isNegligible x = false := by
      rw [← Bool.not_eq_true]
      intro hnegligible
      rw [finite_of_negligible hnegligible] at hfinite
      cases hfinite
    rw [square_root_of_counts hneg hcounts, newton_not_finite hfinite]
    rfl

theorem square_root_not_below_zero (h : squareRoot x = .ok r) : 0.0 ≤ r := by
  have hdenotes : Denotes r (value r) := ⟨(finite_of_square_root h).2, rfl⟩
  rw [denotes_zero_point.le_iff hdenotes]
  cases hcounts : isNegligible x with
  | true =>
    rw [square_root_negligible hcounts] at h
    cases h
    exact denotes_zero_point.value_eq.ge
  | false => exact (root_bounds hcounts h).1.le

/-- What a square root is of any number. It is outside the domain exactly for what is below zero and counts;
what is negligible has root zero; for infinity and for what is not a number, and for nothing else, the
iteration does not converge, however many steps it has. A root that is found is finite and not below zero,
and if the radicand counts it is one step of the iteration from an estimate near it. -/
theorem square_root_outcomes (x : Float) :
    (∀ cause, squareRoot x = .error (.outsideDomain cause) ↔
      cause = .rootOfNegative x ∧ x < 0.0 ∧ isNegligible x = false) ∧
    (isNegligible x = true → squareRoot x = .ok 0.0) ∧
    (squareRoot x = .error (.noConvergence x 2048) ↔ x.isNaN = true ∨ x = 1.0 / 0.0) ∧
    (x.isNaN = true ∨ x = 1.0 / 0.0 → ∀ steps, newton x steps (x / 2.0) = none) ∧
    ∀ r, squareRoot x = .ok r → r.isFinite = true ∧ r.isNaN = false ∧ 0.0 ≤ r ∧
      (isNegligible x = false → ∃ n < 2048, ∃ p, p = (newtonStep x)^[n] (x / 2.0) ∧
        r = (p + x / p) / 2.0 ∧ (r - p).abs < tolerance) := by
  refine ⟨fun cause => square_root_below_zero_iff, square_root_negligible, square_root_used_up_iff,
    fun h steps => newton_not_finite (not_finite_of_infinite h).1 steps _, fun r h => ?_⟩
  have hfinite := (finite_of_square_root h).2
  refine ⟨hfinite, is_nan_of_finite hfinite, square_root_not_below_zero h, fun hcounts => ?_⟩
  have hneg : ¬x < 0.0 := by
    intro hneg
    rw [square_root_below_zero_iff.mpr ⟨rfl, hneg, hcounts⟩] at h
    cases h
  rw [square_root_of_counts hneg hcounts] at h
  cases hnewton : newton x rootSteps (x / 2.0) with
  | none =>
    rw [hnewton] at h
    cases h
  | some q =>
    rw [hnewton] at h
    cases h
    obtain ⟨n, hn, hr, hstop⟩ := newton_found hnewton
    exact ⟨n, hn, _, rfl, hr.symm, hstop⟩

theorem square_root_outcomes_samples :
    squareRoot (-4.0) = .error (.outsideDomain (.rootOfNegative (-4.0))) ∧
    squareRoot (-1e-12) = .ok 0.0 ∧
    squareRoot (1.0 / 0.0) = .error (.noConvergence (1.0 / 0.0) 2048) ∧
    newton (0.0 / 0.0) (2 ^ 100) (0.0 / 0.0 / 2.0) = none ∧
    squareRoot 2.0 = .ok 1.414213562373095 ∧ (1.414213562373095 : Float).isNaN = false ∧
      ∃ n < 2048, ∃ p, p = (newtonStep 2.0)^[n] (2.0 / 2.0) ∧
        1.414213562373095 = (p + 2.0 / p) / 2.0 ∧ (1.414213562373095 - p).abs < tolerance := by
  have htwo : squareRoot 2.0 = .ok 1.414213562373095 := by decide +kernel
  obtain ⟨-, -, -, -, hfound⟩ := square_root_outcomes 2.0
  obtain ⟨-, hnan, -, hstep⟩ := hfound _ htwo
  exact ⟨((square_root_outcomes (-4.0)).1 _).mpr ⟨rfl, by decide +kernel, by decide +kernel⟩,
    (square_root_outcomes (-1e-12)).2.1 (by decide +kernel),
    (square_root_outcomes (1.0 / 0.0)).2.2.1.mpr (.inr rfl),
    (square_root_outcomes (0.0 / 0.0)).2.2.2.1 (.inl (by decide +kernel)) _,
    htwo, hnan, hstep (by decide +kernel)⟩

end Trinomial.Number
