import Trinomial.Proofs.Number.Range
import Trinomial.Proofs.Root.Pairs
import Trinomial.Proofs.Solution.ZeroSigns

/-! # Equations of opposite sign

An equation and its negative have the same solution, degree and reduced form. The formulas turn twice,
except that the two real roots, or the two conjugates, come out in the other order, which sorting undoes.
-/
set_option autoImplicit false

namespace Trinomial

open Number (Blind)
open Solution (withoutNegativeZero)

/-! ## The formulas -/

namespace Solution
variable (a b c r : Float)

theorem discriminant_neg : discriminantOf (-a) (-b) (-c) = discriminantOf a b c := by
  rw [discriminantOf, Number.float_neg_mul_neg, Number.float_mul_neg 4.0 a, Number.float_neg_mul_neg]
  rfl

theorem vertex_neg : vertex (-a) (-b) = vertex a b := by
  rw [vertex, Number.float_mul_neg, Number.float_neg_div_neg]
  rfl

theorem blind_quotient : Blind fun z => withoutNegativeZero (z / (2.0 * -a)) :=
  Number.blind_without_negative_zero.div (2.0 * -a)

/-- The root with `+` of the negative is the root with `-`. -/
theorem root_plus_neg : withoutNegativeZero ((- -b + r) / (2.0 * -a)) =
    withoutNegativeZero ((-b - r) / (2.0 * a)) := by
  rw [Blind.neg_add _ _ (blind_quotient a), Number.float_mul_neg, Number.float_neg_div_neg]

theorem root_minus_neg : withoutNegativeZero ((- -b - r) / (2.0 * -a)) =
    withoutNegativeZero ((-b + r) / (2.0 * a)) := by
  rw [Blind.neg_sub _ _ (blind_quotient a), Number.float_mul_neg, Number.float_neg_div_neg]

theorem quadratic_neg :
    (quadratic (-a) (-b) (-c)).map sorted = (quadratic a b c).map sorted := by
  simp only [quadratic, discriminant_neg, vertex_neg, root_plus_neg, root_minus_neg]
  generalize discriminantOf a b c = d
  split_ifs
  · rfl
  · cases Number.squareRoot d with
    | error e => simp only [map_error]
    | ok r => simp only [map_ok, sorted, Root.sort_reals]
  · cases Number.squareRoot (-d) with
    | error e => simp only [map_error]
    | ok r =>
      have him : r / (2.0 * -a) = -(r / (2.0 * a)) := by
        rw [Number.float_mul_neg, Number.float_div_neg]
      have hsort := Root.sort_conjugates
        ⟨ComplexNumber.unsignedIfNegligible (vertex a b), r / (2.0 * a)⟩
      simp only [map_ok, sorted, ComplexNumber.conj, him, Number.float_neg_neg] at hsort ⊢
      rw [hsort]

theorem linear_neg : linear (-b) (-c) = linear b c := by
  rw [linear, Number.float_neg_div_neg]
  rfl

theorem constant_neg : constant (-c) = constant c := by
  rw [constant, Number.is_negligible_neg]
  rfl

theorem of_coefficients_neg :
    (ofCoefficients (-a) (-b) (-c)).map sorted = (ofCoefficients a b c).map sorted := by
  simp only [ofCoefficients, Number.is_negligible_neg, linear_neg, constant_neg]
  split_ifs
  · exact quadratic_neg a b c
  · rfl
  · rfl

/-- No root is taken of a negative number, so the iteration is all that can fail. -/
theorem error_of_coefficients {a b c : Float} {e : Failure} (h : ofCoefficients a b c = .error e) :
    ∃ x, e = .noConvergence x Number.rootSteps := by
  simp only [ofCoefficients, quadratic] at h
  split_ifs at h with ha hd hpos
  · exact ⟨_, Number.no_convergence_of_square_root (Number.not_lt_of_lt hpos) (map_eq_error.mp h)⟩
  · exact ⟨_, Number.no_convergence_of_square_root
      (fun hneg => hpos (Number.pos_of_neg_lt_zero hneg)) (map_eq_error.mp h)⟩

end Solution

/-! ## Tables -/

/-- The term of opposite coefficient. -/
def Term.negate (t : Term) : Term := { t with coefficient := -t.coefficient }

namespace Table

/-- The table of the same degrees with opposite coefficients. -/
def negate (t : Table) : Table := ⟨t.terms.map Term.negate⟩

variable (t : Table)

/-- A coefficient turns, except that one without a term is `0.0` both times. -/
theorem coefficient_negate (d : Degree) : t.negate.coefficient d = -t.coefficient d ∨
    t.coefficient d = 0.0 ∧ t.negate.coefficient d = 0.0 := by
  have hfind : t.negate.terms.find? (fun u => u.degree.same d) =
      (t.terms.find? fun u => u.degree.same d).map Term.negate := List.find?_map
  rw [coefficient, coefficient, hfind]
  cases t.terms.find? fun u => u.degree.same d with
  | none => exact .inr ⟨rfl, rfl⟩
  | some u => exact .inl rfl

theorem blind_negate {β : Type} {f : Float → β} (hf : Blind f) (d : Degree) :
    f (t.negate.coefficient d) = f (-t.coefficient d) := by
  rcases t.coefficient_negate d with h | ⟨h, h'⟩
  · rw [h]
  · rw [h, h']
    exact hf

theorem result_solve_negate : t.negate.solve.result = t.solve.result := by
  have ha := t.blind_negate (Solution.of_coefficients_blind_a t.negate.b t.negate.c) (.number 2.0)
  have hb := t.blind_negate (Solution.of_coefficients_blind_b (-t.a) t.negate.c) (.number 1.0)
  have hc := t.blind_negate (Solution.of_coefficients_blind_c (-t.a) (-t.b)) (.number 0.0)
  rw [result_solve, result_solve, ← Solution.of_coefficients_neg t.a]
  exact congrArg (Except.map Solution.sorted) (ha.trans (hb.trans hc))

theorem error_solve {e : Failure} (h : t.solve.result = .error e) :
    ∃ x, e = .noConvergence x Number.rootSteps := by
  rw [result_solve] at h
  exact Solution.error_of_coefficients (map_eq_error.mp h)

theorem negligible_negate (d : Degree) :
    Number.isNegligible (t.negate.coefficient d) = Number.isNegligible (t.coefficient d) := by
  rw [t.blind_negate Number.blind_is_negligible, Number.is_negligible_neg]

theorem degree_negate : t.negate.degree = t.degree := by
  rw [degree, a, negligible_negate, b, negligible_negate]
  rfl

/-! ## The reduced form -/

/-- The terms of opposite coefficient, each with its degree. -/
def opposite (ts : List (ℕ × Float)) : List (ℕ × Float) := ts.map fun p => (p.1, -p.2)

theorem shown_terms_negate : t.negate.shownTerms = opposite t.shownTerms := by
  have hshown (n : ℕ) (d : Degree) (rest : List (ℕ × Float)) :
      (if !Number.isNegligible (t.negate.coefficient d) then
          (n, t.negate.coefficient d) :: opposite rest else opposite rest) =
        opposite (if !Number.isNegligible (t.coefficient d) then
          (n, t.coefficient d) :: rest else rest) := by
    rw [t.blind_negate (shown_blind n (opposite rest)) d, Number.is_negligible_neg]
    split_ifs <;> rfl
  simp only [shownTerms, List.filter_cons, List.filter_nil]
  rw [a, b, c, a, b, c, ← hshown, ← hshown, ← hshown]
  rfl

/-- The turn of a first coefficient that counts takes the other value. -/
theorem turn_opposite {n : ℕ} {v : Float} {rest : List (ℕ × Float)} (hv : v.isNaN = false)
    (hne : Number.isNegligible v = false) :
    turn (opposite ((n, v) :: rest)) = -turn ((n, v) :: rest) := by
  change (if -v < 0.0 then -1.0 else 1.0) = -(if v < 0.0 then -1.0 else 1.0 : Float)
  rcases Number.signed_of_counts hv hne with h | h
  · have hneg : ¬-v < 0.0 := fun h' => Number.not_lt_of_lt h (Number.pos_of_neg_lt_zero h')
    rw [if_pos h, if_neg hneg]
    rfl
  · rw [if_neg (Number.not_lt_of_lt h), if_pos ((Number.neg_lt_zero_iff hv).mpr h)]

theorem reduced_side_opposite {ts : List (ℕ × Float)} (h : turn (opposite ts) = -turn ts) :
    reducedSide (opposite ts) = reducedSide ts := by
  cases ts with
  | nil => rfl
  | cons p rest =>
    have hcons : opposite (p :: rest) = (p.1, -p.2) :: opposite rest := rfl
    rw [hcons] at h ⊢
    rw [reducedSide, reducedSide, h, Number.float_neg_mul_neg, opposite, List.map_map]
    simp only [Function.comp_def, Number.float_neg_mul_neg]

/-- Every shown coefficient counts, and is one of the three. -/
theorem shown_counts {p : ℕ × Float} (h : p ∈ t.shownTerms) :
    Number.isNegligible p.2 = false ∧ (p.2 = t.a ∨ p.2 = t.b ∨ p.2 = t.c) := by
  simp only [shownTerms, List.mem_filter, List.mem_cons, List.not_mem_nil, or_false,
    Bool.not_eq_true'] at h
  obtain ⟨rfl | rfl | rfl, h⟩ := h
  · exact ⟨h, .inl rfl⟩
  · exact ⟨h, .inr (.inl rfl)⟩
  · exact ⟨h, .inr (.inr rfl)⟩

variable {t}

theorem reduced_form_negate (ha : t.a.isNaN = false) (hb : t.b.isNaN = false)
    (hc : t.c.isNaN = false) : t.negate.reducedForm = t.reducedForm := by
  rw [reducedForm, shown_terms_negate]
  cases h : t.shownTerms with
  | nil => rw [reducedForm, h, opposite, List.map_nil]
  | cons p rest =>
    obtain ⟨hcounts, hp⟩ := t.shown_counts (p := p) (h ▸ List.mem_cons_self)
    have hnan : p.2.isNaN = false := by
      rcases hp with hp | hp | hp
      · exact hp ▸ ha
      · exact hp ▸ hb
      · exact hp ▸ hc
    rw [reducedForm, h, reduced_side_opposite (turn_opposite hnan hcounts)]

/-- An equation of finite coefficients and its negative have the same solution, bit for bit, or fail
alike for want of convergence; they have the same degree and the same reduced form. -/
theorem negate_shown (ha : t.a.isFinite = true) (hb : t.b.isFinite = true)
    (hc : t.c.isFinite = true) :
    t.negate.solve.result = t.solve.result ∧
      (∀ e, t.solve.result = .error e → ∃ x, e = .noConvergence x Number.rootSteps) ∧
      t.negate.degree = t.degree ∧ t.negate.reducedForm = t.reducedForm :=
  ⟨t.result_solve_negate, fun _ h => t.error_solve h, t.degree_negate,
    reduced_form_negate (Number.is_nan_of_finite ha) (Number.is_nan_of_finite hb)
      (Number.is_nan_of_finite hc)⟩

/-- `-X^2 - 4 = 0`, without a term of degree 1. -/
def negativeSample : Table := ⟨[⟨-4.0, .number 0.0⟩, ⟨-1.0, .number 2.0⟩]⟩

theorem negate_shown_sample : negativeSample.negate.solve.result = negativeSample.solve.result ∧
    (∀ e, negativeSample.solve.result = .error e → ∃ x, e = .noConvergence x Number.rootSteps) ∧
    negativeSample.negate.degree = negativeSample.degree ∧
    negativeSample.negate.reducedForm = negativeSample.reducedForm :=
  negate_shown (by decide) (by decide) (by decide)

end Table
end Trinomial
