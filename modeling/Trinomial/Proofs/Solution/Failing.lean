import Trinomial.Proofs.Solution.Negation

/-! # How solving fails

Of all the formulas only the square root of the discriminant can fail, and it is taken of a number that is
not negative: what is not finite passes every comparison, and the iteration does not end on it. No formula
divides by zero, since what is divided by is not negligible, or twice such a number.
-/
set_option autoImplicit false

namespace Trinomial

open Number (isNegligible squareRoot rootSteps)

namespace Solution
variable {a b c d : Float} {e : Failure}

/-! ## The square root of the discriminant -/

/-- The number that the formulas take the square root of, for a discriminant. -/
def radicand (d : Float) : Float := if d > 0.0 then d else -d

theorem radicand_not_negative : ¬radicand d < 0.0 := by
  rw [radicand]
  split_ifs with hpos
  · exact Number.not_lt_of_lt hpos
  · exact fun hneg => hpos (Number.pos_of_neg_lt_zero hneg)

theorem radicand_not_finite (hd : d.isFinite = false) : (radicand d).isFinite = false := by
  rw [radicand]
  split_ifs
  · exact hd
  · rw [← Bool.not_eq_true] at hd ⊢
    intro hneg
    exact hd (Number.float_neg_neg d ▸ Number.finite_neg hneg)

theorem quadratic_error_iff : quadratic a b c = .error e ↔
    isNegligible (discriminantOf a b c) = false ∧
      squareRoot (radicand (discriminantOf a b c)) = .error e := by
  rw [quadratic, radicand]
  dsimp only
  generalize discriminantOf a b c = d
  cases hnegligible : isNegligible d with
  | true => simp
  | false =>
    rw [if_neg Bool.false_ne_true]
    by_cases hpos : d > 0.0
    · rw [if_pos hpos, if_pos hpos, map_eq_error, eq_self_iff_true, true_and]
    · rw [if_neg hpos, if_neg hpos, map_eq_error, eq_self_iff_true, true_and]

theorem of_coefficients_error_iff : ofCoefficients a b c = .error e ↔ isNegligible a = false ∧
    isNegligible (discriminantOf a b c) = false ∧
      squareRoot (radicand (discriminantOf a b c)) = .error e := by
  rw [ofCoefficients, ← quadratic_error_iff]
  cases isNegligible a with
  | false => simp
  | true => cases isNegligible b <;> simp

/-! ## Divisors -/

/-- What a division does with a zero divisor does not matter to the formulas. -/
theorem of_coefficients_div {div : Float → Float → Float}
    (h : ∀ x y, (y == 0.0) = false → div x y = x / y) (a b c : Float) :
    ofCoefficients a b c div = ofCoefficients a b c := by
  rw [ofCoefficients, ofCoefficients]
  split_ifs with ha hb
  · have hdiv (x : Float) : div x (2.0 * a) = x / (2.0 * a) :=
      h x _ (Number.not_zero_of_counts (by simpa using ha)).2
    simp only [quadratic, vertex, hdiv]
  · have hdiv : div (-c) b = -c / b := h _ _ (Number.not_zero_of_counts (by simpa using hb)).1
    rw [linear, linear, hdiv]
  · rfl

end Solution

open Solution (discriminantOf radicand)

namespace Table

theorem solve_error_iff (t : Table) (e : Failure) : t.solve.result = .error e ↔
    isNegligible t.a = false ∧ isNegligible (discriminantOf t.a t.b t.c) = false ∧
      squareRoot (radicand (discriminantOf t.a t.b t.c)) = .error e := by
  rw [result_solve, map_eq_error, Solution.of_coefficients_error_iff]

/-- Solving has one way to fail, whatever the coefficients are: in degree two, where the discriminant counts,
the iteration for its square root does not converge. It never does where the discriminant is not finite. No
division of the formulas has a zero divisor. -/
theorem solve_fails_one_way (t : Table) :
    (∀ e, t.solve.result = .error e ↔
      isNegligible t.a = false ∧ isNegligible (discriminantOf t.a t.b t.c) = false ∧
        squareRoot (radicand (discriminantOf t.a t.b t.c)) = .error e) ∧
    (∀ e, t.solve.result = .error e →
      e = .noConvergence (radicand (discriminantOf t.a t.b t.c)) rootSteps) ∧
    (isNegligible t.a = false →
      (discriminantOf t.a t.b t.c).isInf = true ∨ (discriminantOf t.a t.b t.c).isNaN = true →
      t.solve.result = .error (.noConvergence (radicand (discriminantOf t.a t.b t.c)) rootSteps)) ∧
    (isNegligible t.a = false → (2.0 * t.a == 0.0) = false) ∧
    (isNegligible t.b = false → (t.b == 0.0) = false) ∧
    ∀ div : Float → Float → Float, (∀ x y, (y == 0.0) = false → div x y = x / y) →
      Solution.ofCoefficients t.a t.b t.c div = Solution.ofCoefficients t.a t.b t.c := by
  have hcause (e : Failure) (h : t.solve.result = .error e) :
      e = .noConvergence (radicand (discriminantOf t.a t.b t.c)) rootSteps :=
    Number.no_convergence_of_square_root Solution.radicand_not_negative
      ((t.solve_error_iff e).mp h).2.2
  refine ⟨t.solve_error_iff, hcause, fun ha hd => ?_, fun ha => (Number.not_zero_of_counts ha).2,
    fun hb => (Number.not_zero_of_counts hb).1,
    fun div hdiv => Solution.of_coefficients_div hdiv t.a t.b t.c⟩
  -- what is not finite counts, and a number that has a square root is finite
  have hinfinite := Solution.radicand_not_finite (Number.not_finite_of_special hd)
  have hcounts : isNegligible (discriminantOf t.a t.b t.c) = false := by
    rw [← Bool.not_eq_true]
    intro hnegligible
    have hfinite := Number.finite_of_negligible hnegligible
    rw [Number.not_finite_of_special hd] at hfinite
    cases hfinite
  cases hroot : squareRoot (radicand (discriminantOf t.a t.b t.c)) with
  | error e =>
    have hfails := (t.solve_error_iff e).mpr ⟨ha, hcounts, hroot⟩
    rw [hfails, hcause e hfails]
  | ok r =>
    rw [(Number.finite_of_square_root hroot).1] at hinfinite
    cases hinfinite

/-- `X^2 + 1e200*X = 0`, whose discriminant is infinite. -/
def infiniteSample : Table := ⟨[⟨1e200, .number 1.0⟩, ⟨1.0, .number 2.0⟩]⟩

/-- `-X^2 + 1e200*X - 1e308 = 0`, whose discriminant is not a number. -/
def nanSample : Table := ⟨[⟨-1e308, .number 0.0⟩, ⟨1e200, .number 1.0⟩, ⟨-1.0, .number 2.0⟩]⟩

theorem solve_fails_one_way_samples :
    infiniteSample.solve.result = .error (.noConvergence (1.0 / 0.0) 2048) ∧
    nanSample.solve.result = .error (.noConvergence (0.0 / 0.0) 2048) := by
  obtain ⟨-, -, hinfinite, -⟩ := solve_fails_one_way infiniteSample
  obtain ⟨-, -, hnan, -⟩ := solve_fails_one_way nanSample
  exact ⟨(hinfinite (by decide +kernel) (.inl (by decide +kernel))).trans (by decide +kernel),
    (hnan (by decide +kernel) (.inr (by decide +kernel))).trans (by decide +kernel)⟩

end Table

end Trinomial
