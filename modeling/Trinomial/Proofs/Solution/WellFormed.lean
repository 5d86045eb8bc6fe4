import Trinomial.Proofs.Form.Leading
import Trinomial.Proofs.Number.Range
import Trinomial.Proofs.Solution.Negation

/-! # Well-formed solutions

A solution agrees with the degree of its table and with its reduced form. Where Newton's iteration ends,
the discriminant is finite, so every operand of the formulas is, and no root is undefined.
-/
set_option autoImplicit false

namespace Trinomial

open Solution (withoutNegativeZero)

namespace Solution
variable {a b c : Float}

/-- Behind a finite discriminant stand finite coefficients, and a divisor that is finite and not zero. -/
theorem finite_operands (ha : Number.isNegligible a = false)
    (hd : (discriminantOf a b c).isFinite = true) :
    b.isFinite = true ∧ ∃ s m e, ∃ hm : 0 < m, Number.parts (2.0 * a) = .finite s m e hm := by
  obtain ⟨hbb, hac⟩ := Number.finite_of_sub hd
  have h4a := (Number.finite_of_mul hac).1
  refine ⟨(Number.finite_of_mul hbb).1, ?_⟩
  rcases Number.finite_cases (Number.finite_of_mul h4a).2 with ⟨hzero, -⟩ | ⟨hreg, hfinite⟩
  · rw [Number.negligible_of_zero hzero] at ha
    cases ha
  · exact Number.parts_double hfinite h4a

/-- What the discriminant says about a solution of degree two. -/
inductive Classified (d : Float) : Solution → Prop
  | double {x : Float} (hd : Number.isNegligible d = true) (hx : x.isNaN = false) :
      Classified d ⟨.doubleRoot, some d, [.real x, .real x]⟩
  | reals {x y : Float} (hd : Number.isNegligible d = false) (hpos : 0.0 < d)
      (hx : x.isNaN = false) (hy : y.isNaN = false) (hxy : x ≤ y) :
      Classified d ⟨.twoReals, some d, [.real x, .real y]⟩
  | conjugates {z : ComplexNumber} (hd : Number.isNegligible d = false) (hneg : d < 0.0)
      (hre : Number.isNegligible z.re = true → Number.isNegative z.re = false)
      (him : (z.im == 0.0) = false → 0.0 < z.im) :
      Classified d ⟨.conjugatePair, some d, [.complex z, .complex z.conj]⟩

theorem Classified.outcome_ne {d : Float} {s : Solution} (h : Classified d s) :
    s.outcome ≠ .identity := by
  cases h <;> nofun

theorem unsigned_of_negligible {x : Float}
    (h : Number.isNegligible (ComplexNumber.unsignedIfNegligible x) = true) :
    Number.isNegative (ComplexNumber.unsignedIfNegligible x) = false := by
  rw [ComplexNumber.unsignedIfNegligible] at h ⊢
  split_ifs at h ⊢ with hx
  · exact (Number.abs_finite (Number.finite_of_negligible hx)).2.1
  · exact absurd h hx

theorem quadratic_classified {s : Solution} (ha : Number.isNegligible a = false)
    (h : quadratic a b c = .ok s) :
    (discriminantOf a b c).isFinite = true ∧ Classified (discriminantOf a b c) s.sorted := by
  have hquotient {x : Float} (hd : (discriminantOf a b c).isFinite = true) (hx : x.isNaN = false) :
      (x / (2.0 * a)).isNaN = false := by
    obtain ⟨-, _, _, _, _, h2a⟩ := finite_operands ha hd
    exact Number.div_not_nan hx h2a
  simp only [quadratic] at h
  split_ifs at h with hnegligible hpos
  · have hd := Number.finite_of_negligible hnegligible
    have hb := Number.finite_neg (finite_operands ha hd).1
    have hx := Number.without_negative_zero_not_nan (hquotient hd (Number.is_nan_of_finite hb))
    cases h
    refine ⟨hd, ?_⟩
    rw [sorted, Root.sort_of_rank_le (le_refl _)]
    exact .double hnegligible hx
  · obtain ⟨r, hroot, rfl⟩ := map_eq_ok.mp h
    obtain ⟨hd, hr⟩ := Number.finite_of_square_root hroot
    have hb := Number.finite_neg (finite_operands ha hd).1
    refine ⟨hd, ?_⟩
    obtain ⟨x, y, hsort, hx, hy, hxy⟩ := Root.sort_reals_ascending
      (Number.without_negative_zero_not_nan (hquotient hd (Number.add_not_nan hb hr)))
      (Number.without_negative_zero_not_nan (hquotient hd (Number.sub_not_nan hb hr)))
    rw [sorted, hsort]
    exact .reals (Bool.eq_false_iff.mpr hnegligible) hpos hx hy hxy
  · obtain ⟨r, hroot, rfl⟩ := map_eq_ok.mp h
    obtain ⟨hneg, hr⟩ := Number.finite_of_square_root hroot
    have hd : (discriminantOf a b c).isFinite = true := by
      rw [← Number.float_neg_neg (discriminantOf a b c)]
      exact Number.finite_neg hneg
    have hcounts := Bool.eq_false_iff.mpr hnegligible
    have hsign := (Number.signed_of_counts (Number.is_nan_of_finite hd) hcounts).resolve_right hpos
    refine ⟨hd, ?_⟩
    obtain ⟨w, hsort, hre, him⟩ := Root.sort_conjugates_ascending
      (z := ⟨ComplexNumber.unsignedIfNegligible (vertex a b), r / (2.0 * a)⟩)
      (hquotient hd (Number.is_nan_of_finite hr))
    rw [sorted, hsort]
    refine .conjugates hcounts hsign ?_ him
    rw [hre]
    exact unsigned_of_negligible

/-- All real roots have passed the same filter. -/
theorem real_of_mem {s : Solution} {x : Float} (h : ofCoefficients a b c = .ok s)
    (hx : Root.real x ∈ s.roots) : ∃ y, x = withoutNegativeZero y := by
  simp only [ofCoefficients, quadratic, linear, constant] at h
  split_ifs at h
  · cases h
    simp only [List.mem_cons, Root.real.injEq, List.not_mem_nil, or_false, or_self] at hx
    exact ⟨_, hx⟩
  · obtain ⟨r, -, rfl⟩ := map_eq_ok.mp h
    simp only [List.mem_cons, Root.real.injEq, List.not_mem_nil, or_false] at hx
    rcases hx with hx | hx
    · exact ⟨_, hx⟩
    · exact ⟨_, hx⟩
  · obtain ⟨r, -, rfl⟩ := map_eq_ok.mp h
    simp at hx
  · cases h
    simp only [List.mem_singleton, Root.real.injEq] at hx
    exact ⟨_, hx⟩
  · cases h
    simp at hx
  · cases h
    simp at hx

end Solution

/-! ## Solutions of tables -/

namespace Table
variable {t : Table} {solution : Solution}

/-- Degree and solver classify a table alike. -/
theorem solve_by_degree (h : t.solve.result = .ok solution) :
    (t.degree = 2 ∧ t.lead = t.a ∧ Number.isNegligible t.a = false ∧
        ∃ s, Solution.quadratic t.a t.b t.c = .ok s ∧ s.sorted = solution) ∨
      (t.degree = 1 ∧ t.lead = t.b ∧ Number.isNegligible t.b = false ∧
        Solution.linear t.b t.c = solution) ∨
      (t.degree = 0 ∧ t.lead = t.c ∧ Solution.constant t.c = solution) := by
  rw [result_solve] at h
  obtain ⟨s, hs, hsorted⟩ := map_eq_ok.mp h
  rw [Solution.ofCoefficients] at hs
  rcases t.degree_cases with ⟨hdegree, hlead, ha⟩ | ⟨hdegree, hlead, ha, hb⟩ | ⟨hdegree, hlead, ha, hb⟩
  · rw [ha] at hs
    exact .inl ⟨hdegree, hlead, ha, s, hs, hsorted⟩
  · rw [ha, hb] at hs
    cases hs
    refine .inr (.inl ⟨hdegree, hlead, hb, ?_⟩)
    rw [← hsorted, Solution.sorted, Solution.linear, Root.sort_singleton]
  · rw [ha, hb] at hs
    cases hs
    refine .inr (.inr ⟨hdegree, hlead, ?_⟩)
    rw [← hsorted, Solution.sorted, Solution.constant]
    split_ifs <;> rw [Root.sort_singleton]

theorem identity_iff (h : t.solve.result = .ok solution) :
    solution.outcome = .identity ↔ Number.isNegligible t.lead = true := by
  rcases solve_by_degree h with ⟨-, hlead, ha, s, hs, rfl⟩ | ⟨-, hlead, hb, rfl⟩ | ⟨-, hlead, rfl⟩
  · have houtcome := (Solution.quadratic_classified ha hs).2.outcome_ne
    rw [hlead, ha]
    exact ⟨fun h => absurd h houtcome, nofun⟩
  · rw [hlead, hb]
    exact ⟨nofun, nofun⟩
  · rw [hlead, Solution.constant]
    cases Number.isNegligible t.c with
    | true => exact ⟨fun _ => rfl, fun _ => rfl⟩
    | false => exact iff_of_false (by decide) Bool.false_ne_true

theorem root_ne_negative_zero {x : Float} (h : t.solve.result = .ok solution)
    (hx : Root.real x ∈ solution.roots) : x ≠ -0.0 := by
  rw [result_solve] at h
  obtain ⟨s, hs, rfl⟩ := map_eq_ok.mp h
  obtain ⟨y, rfl⟩ := Solution.real_of_mem hs (List.mem_mergeSort.mp hx)
  exact Number.without_negative_zero_ne y

/-- A solution has the outcome and the roots of its degree; of degree two its discriminant is finite and
decides. No root is `-0.0`. The reduced form is `0.0 = 0.0` for identities, and otherwise starts with `X^2`,
`X` or a constant, as the degree is. -/
theorem solve_well_formed (h : t.solve.result = .ok solution) :
    (t.degree = 0 → solution = if Number.isNegligible t.c then ⟨.identity, none, [.everything]⟩
        else ⟨.contradiction, none, [.nothing]⟩) ∧
      (t.degree = 1 → ∃ x, solution = ⟨.linear, none, [.real x]⟩) ∧
      (t.degree = 2 → ∃ d, d = t.b * t.b - 4.0 * t.a * t.c ∧ d.isFinite = true ∧
        Solution.Classified d solution) ∧
      (∀ x, .real x ∈ solution.roots → x ≠ -0.0) ∧
      (t.reducedForm = "0.0 = 0.0" ↔ solution.outcome = .identity) ∧
      (solution.outcome ≠ .identity →
        ∃ first, Monomial t.turnedLead t.degree first ∧
          ∃ mark ∈ [" + ", " - ", " = "], ∃ rest, t.reducedForm = first ++ mark ++ rest) := by
  refine ⟨?_, ?_, ?_, fun _ hx => root_ne_negative_zero h hx,
    t.reduced_form_zero_iff.trans (identity_iff h).symm, fun houtcome => ?_⟩
  · intro hdegree
    rcases solve_by_degree h with ⟨h2, -⟩ | ⟨h1, -⟩ | ⟨-, -, rfl⟩
    · rw [hdegree] at h2
      cases h2
    · rw [hdegree] at h1
      cases h1
    · rfl
  · intro hdegree
    rcases solve_by_degree h with ⟨h2, -⟩ | ⟨-, -, -, rfl⟩ | ⟨h0, -⟩
    · rw [hdegree] at h2
      cases h2
    · exact ⟨_, rfl⟩
    · rw [hdegree] at h0
      cases h0
  · intro hdegree
    rcases solve_by_degree h with ⟨-, -, ha, s, hs, rfl⟩ | ⟨h1, -⟩ | ⟨h0, -⟩
    · exact ⟨_, rfl, Solution.quadratic_classified ha hs⟩
    · rw [hdegree] at h1
      cases h1
    · rw [hdegree] at h0
      cases h0
  · apply t.reduced_form_leads
    rw [Ne, identity_iff h] at houtcome
    exact Bool.eq_false_iff.mpr houtcome

/-- `-2.5*X + 5 = 0`, whose signs are turned for the eye. -/
def linearSample : Table := .ofCoefficients 0.0 (-2.5) 5.0

/-- A pair of roots, with `X^2` in front, and a single root, with a multiple of `X` in front. -/
theorem solve_well_formed_sample :
    ((Table.ofCoefficients 1.0 (-0.0) (-4.0)).solve.result = .ok Equation.sampleSolution ∧
      Solution.Classified 16.0 Equation.sampleSolution ∧
      (∀ x, Root.real x ∈ Equation.sampleSolution.roots → x ≠ -0.0) ∧
      (Table.ofCoefficients 1.0 (-0.0) (-4.0)).reducedForm = "X^2 - 4.0 = 0.0" ∧
      ∃ mark ∈ [" + ", " - ", " = "], ∃ rest, "X^2 - 4.0 = 0.0" = "X^2" ++ mark ++ rest) ∧
    (linearSample.solve.result = .ok ⟨.linear, none, [.real 2.0]⟩ ∧
      linearSample.reducedForm = "2.5 * X - 5.0 = 0.0" ∧
      ∃ first, Monomial 2.5 1 first ∧
        ∃ mark ∈ [" + ", " - ", " = "], ∃ rest, "2.5 * X - 5.0 = 0.0" = first ++ mark ++ rest) := by
  constructor
  · obtain ⟨-, -, hclass, hroots, -, hleads⟩ := solve_well_formed Equation.sample_solution
    obtain ⟨d, hd, -, hclass⟩ := hclass (by decide +kernel)
    have hvalue : d = 16.0 := hd.trans (by decide +kernel)
    have hform : (Table.ofCoefficients 1.0 (-0.0) (-4.0)).reducedForm = "X^2 - 4.0 = 0.0" := by
      decide +kernel
    obtain ⟨first, hfirst, hrest⟩ := hleads (by decide)
    have hlead : (Table.ofCoefficients 1.0 (-0.0) (-4.0)).turnedLead = 1.0 := by decide +kernel
    have hdegree : (Table.ofCoefficients 1.0 (-0.0) (-4.0)).degree = 2 := by decide +kernel
    rw [hlead, hdegree] at hfirst
    rw [hform] at hrest
    refine ⟨Equation.sample_solution, hvalue ▸ hclass, hroots, hform, ?_⟩
    cases hfirst with
    | square => exact hrest
    | squares h => exact absurd (by decide) h
  · have hsolve : linearSample.solve.result = .ok ⟨.linear, none, [.real 2.0]⟩ := by
      have hlinear : Solution.linear (-2.5) 5.0 = ⟨.linear, none, [.real 2.0]⟩ := by decide +kernel
      have hfound : Solution.ofCoefficients 0.0 (-2.5) 5.0 = .ok ⟨.linear, none, [.real 2.0]⟩ := by
        rw [← hlinear]
        rfl
      rw [linearSample, result_solve, a_of_coefficients, b_of_coefficients, c_of_coefficients, hfound]
      exact congrArg Except.ok (congrArg (Solution.mk .linear none) (Root.sort_singleton _))
    have hform : linearSample.reducedForm = "2.5 * X - 5.0 = 0.0" := by decide +kernel
    obtain ⟨first, hfirst, hrest⟩ := (solve_well_formed hsolve).2.2.2.2.2 (by decide)
    have hlead : linearSample.turnedLead = 2.5 := by decide +kernel
    have hdegree : linearSample.degree = 1 := by decide +kernel
    rw [hlead, hdegree] at hfirst
    rw [hform] at hrest
    exact ⟨hsolve, hform, first, hfirst, hrest⟩

end Table
end Trinomial
