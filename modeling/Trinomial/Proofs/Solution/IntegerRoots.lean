import Trinomial.Proofs.Number.SquareRoot
import Trinomial.Proofs.Root.Pairs
import Trinomial.Proofs.Solution.ZeroSigns

/-! # Equations with integer roots

The coefficients of `a * (X - p) * (X - q)`, their products and the discriminant are integers, and the
discriminant is a perfect square. As long as they stay below 53 binary digits no operation is inexact, so
the solver finds `p` and `q`.
-/
set_option autoImplicit false

namespace Trinomial

open Solution (withoutNegativeZero)

namespace Number
variable {x y : Float} {n : ℤ}

theorem denotes_four : Denotes 4.0 (4 : ℤ) :=
  ⟨by rfl, by rw [value, parts_four, value_of_positive]; norm_num⟩

/-- Without its negative zero an integral number is the number of the integer. -/
theorem Denotes.without_negative_zero (hx : Denotes x n) (hn : |n| < 2 ^ 53) :
    withoutNegativeZero x = Float.ofInt n := by
  rw [hx.equal (denotes_of_int hn)]
  by_cases h : n = 0
  · rw [h]
    rfl
  · exact without_negative_zero_eq ((denotes_of_int hn).ne_negative_zero (by exact_mod_cast h))

/-- Equal numbers differ by `0.0`, unless the first one is `-0.0`. -/
theorem Denotes.sub_eq_zero {q : ℚ} (hx : Denotes x q) (hy : Denotes y q) (h : x ≠ -0.0) :
    x - y = 0.0 := by
  by_cases hq : q = 0
  · subst hq
    have hx0 : withoutNegativeZero x = 0.0 := hx.equal denotes_zero_point
    have hy0 : withoutNegativeZero y = 0.0 := hy.equal denotes_zero_point
    have hsub : x - withoutNegativeZero y = x - y := (blind_sub_right h).apply y
    rw [← hsub, hy0, ← without_negative_zero_eq h, hx0]
    decide
  · rw [hx.eq hy hq, sub_eq]
    rcases hy.cases with ⟨-, -, h0⟩ | ⟨s, m, e, hm, hparts, -⟩
    · exact absurd h0 hq
    · rw [hparts]
      simp only [Float.Model.UnpackedFloat.sub, sub_self]
      rfl

end Number

namespace Root

theorem sort_integers {p q : ℤ} (hp : |p| < 2 ^ 53) (hq : |q| < 2 ^ 53) :
    sort [real (Float.ofInt p), real (Float.ofInt q)] =
      [real (Float.ofInt (min p q)), real (Float.ofInt (max p q))] := by
  have ascending {m n : ℤ} (hm : |m| < 2 ^ 53) (hn : |n| < 2 ^ 53) (h : m < n) :
      Number.rank (Float.ofInt m) < Number.rank (Float.ofInt n) :=
    Number.rank_lt_of_lt (((Number.denotes_of_int hm).lt_iff (Number.denotes_of_int hn)).mpr
      (by exact_mod_cast h))
  rcases lt_trichotomy p q with h | rfl | h
  · rw [min_eq_left h.le, max_eq_right h.le, sort_of_rank_le (ascending hp hq h).le]
  · rw [min_self, max_self, sort_of_rank_le le_rfl]
  · rw [min_eq_right h.le, max_eq_left h.le, sort_reals, sort_of_rank_le (ascending hq hp h).le]

end Root

namespace Solution

/-- Integer roots and a leading coefficient that keep all terms of the formulas exact. -/
structure Moderate (a p q : ℤ) : Prop where
  lead_ne : a ≠ 0
  lead : |a| ≤ 2 ^ 24
  left : |a * p| ≤ 2 ^ 24
  right : |a * q| ≤ 2 ^ 24

theorem moderate_of_bound {a p q : ℤ} (ha : a ≠ 0) (h : |a| * max 1 (max |p| |q|) ≤ 2 ^ 24) :
    Moderate a p q := by
  have hpos := abs_nonneg a
  refine ⟨ha, ?_, ?_, ?_⟩
  · calc |a| = |a| * 1 := (mul_one _).symm
      _ ≤ |a| * max 1 (max |p| |q|) := mul_le_mul_of_nonneg_left (le_max_left _ _) hpos
      _ ≤ 2 ^ 24 := h
  · rw [abs_mul]
    refine le_trans (mul_le_mul_of_nonneg_left ?_ hpos) h
    exact (le_max_left _ _).trans (le_max_right _ _)
  · rw [abs_mul]
    refine le_trans (mul_le_mul_of_nonneg_left ?_ hpos) h
    exact (le_max_right _ _).trans (le_max_right _ _)

namespace Moderate
variable {a p q : ℤ} (h : Moderate a p q)
include h

/-- The bounds of the leading coefficient pass to the roots. -/
theorem root_left : |p| ≤ 2 ^ 24 := by
  have hone : 1 ≤ |a| := Int.one_le_abs h.lead_ne
  have hleft := h.left
  rw [abs_mul] at hleft
  nlinarith [abs_nonneg p]

theorem swap : Moderate a q p := ⟨h.lead_ne, h.lead, h.right, h.left⟩

theorem constant_lt : |a * p * q| < 2 ^ 53 := by
  have hleft := h.left
  have hright := h.swap.root_left
  rw [abs_mul]
  nlinarith [abs_nonneg (a * p), abs_nonneg q]

end Moderate

/-- The coefficients of `a * (X - p) * (X - q)`. -/
structure Expanded (a p q : ℤ) (x y z : Float) : Prop extends Moderate a p q where
  square : Number.Denotes x a
  linear : Number.Denotes y (-(a * (p + q)) : ℤ)
  constant : Number.Denotes z (a * p * q : ℤ)

namespace Expanded
variable {a p q : ℤ} {x y z : Float} (h : Expanded a p q x y z)
include h

theorem linear_squared : Number.Denotes (y * y) (((a * p + a * q) ^ 2 : ℤ) : ℚ) := by
  have hleft := abs_le.mp h.left
  have hright := abs_le.mp h.right
  have hsquare : -(a * (p + q)) * -(a * (p + q)) = (a * p + a * q) ^ 2 := by ring
  rw [← hsquare]
  apply h.linear.mul_integer h.linear
  rw [hsquare, abs_of_nonneg (sq_nonneg _)]
  nlinarith

theorem four_products : Number.Denotes (4.0 * x * z) ((4 * (a * p) * (a * q) : ℤ) : ℚ) := by
  have hlead := abs_le.mp h.lead
  have hleft := abs_le.mp h.left
  have hright := abs_le.mp h.right
  have hfour : Number.Denotes (4.0 * x) ((4 * a : ℤ) : ℚ) :=
    Number.denotes_four.mul_integer h.square (by rw [abs_lt]; omega)
  have hproduct : 4 * a * (a * p * q) = 4 * (a * p) * (a * q) := by ring
  rw [← hproduct]
  apply hfour.mul_integer h.constant
  rw [hproduct, abs_lt]
  constructor <;> nlinarith

theorem discriminant_denotes :
    Number.Denotes (discriminantOf x y z) (((a * p - a * q) ^ 2 : ℤ) : ℚ) := by
  have hleft := abs_le.mp h.left
  have hright := abs_le.mp h.right
  have hsquare : (a * p + a * q) ^ 2 - 4 * (a * p) * (a * q) = (a * p - a * q) ^ 2 := by ring
  rw [← hsquare]
  apply h.linear_squared.sub_integer h.four_products
  rw [hsquare, abs_of_nonneg (sq_nonneg _)]
  nlinarith

theorem denominator_denotes : Number.Denotes (2.0 * x) ((2 * a : ℤ) : ℚ) := by
  have hlead := abs_le.mp h.lead
  have htwo : Number.Denotes 2.0 ((2 : ℤ) : ℚ) := Number.denotes_two
  exact htwo.mul_integer h.square (by rw [abs_lt]; omega)

/-- The quotient by the denominator of the formulas, without its negative zero. -/
theorem quotient {u : Float} {n : ℤ} (hu : Number.Denotes u ((2 * a * n : ℤ) : ℚ)) (hn : |n| < 2 ^ 53) :
    withoutNegativeZero (u / (2.0 * x)) = Float.ofInt n := by
  have hdenominator : 2 * a ≠ 0 := mul_ne_zero two_ne_zero h.lead_ne
  exact (hu.div_integer h.denominator_denotes hdenominator hn).without_negative_zero hn

theorem lead_counts : Number.isNegligible x = false :=
  Number.counts_of_one_le h.square (by exact_mod_cast Int.one_le_abs h.lead_ne)

/-- The roots have one equation in either order. -/
theorem swap : Expanded a q p x y z := by
  have hsum : a * (q + p) = a * (p + q) := by ring
  have hproduct : a * q * p = a * p * q := by ring
  exact ⟨h.toModerate.swap, h.square, by rw [hsum]; exact h.linear, by rw [hproduct]; exact h.constant⟩

theorem linear_negated : Number.Denotes (-y) ((a * p + a * q : ℤ) : ℚ) := by
  have hneg := h.linear.neg
  have hsum : (-((-(a * (p + q)) : ℤ) : ℚ)) = ((a * p + a * q : ℤ) : ℚ) := by
    push_cast
    ring
  rwa [hsum] at hneg

/-- Equal roots: the discriminant is zero, and the vertex is the root. -/
theorem double_root (hpq : p = q) : ofCoefficients x y z =
    .ok ⟨.doubleRoot, some 0.0, [.real (Float.ofInt p), .real (Float.ofInt p)]⟩ := by
  subst hpq
  have hd : discriminantOf x y z = 0.0 := by
    have hdouble : 4 * (a * p) * (a * p) = (a * p + a * p) ^ 2 := by ring
    have hfour := h.four_products
    rw [hdouble] at hfour
    exact h.linear_squared.sub_eq_zero hfour (Number.square_ne_neg_zero y)
  have hvertex : withoutNegativeZero (vertex x y) = Float.ofInt p := by
    apply h.quotient _ (h.root_left.trans_lt (by norm_num))
    have hnumerator : a * p + a * p = 2 * a * p := by ring
    rw [← hnumerator]
    exact h.linear_negated
  have hnegligible : Number.isNegligible 0.0 = true := by decide
  rw [ofCoefficients, h.lead_counts, quadratic, hd, hvertex, if_pos hnegligible]
  rfl

section Distinct
variable (hlt : a * q < a * p)
include hlt

/-- The discriminant of distinct roots is the number of a perfect square, and counts as positive. -/
theorem discriminant_of_lt : discriminantOf x y z = Float.ofInt ((a * p - a * q) ^ 2) ∧
    Number.isNegligible (discriminantOf x y z) = false ∧ discriminantOf x y z > 0.0 := by
  have hd := h.discriminant_denotes
  have hleft := abs_le.mp h.left
  have hright := abs_le.mp h.right
  have hpos : 0 < (a * p - a * q) ^ 2 := pow_pos (sub_pos.mpr hlt) 2
  have hbound : |(a * p - a * q) ^ 2| < 2 ^ 53 := by
    rw [abs_of_pos hpos]
    nlinarith
  refine ⟨?_, ?_, ?_⟩
  · exact hd.eq (Number.denotes_of_int hbound) (by exact_mod_cast hpos.ne')
  · exact Number.counts_of_one_le hd (by exact_mod_cast Int.one_le_abs hpos.ne')
  · rw [gt_iff_lt, Number.denotes_zero_point.lt_iff hd]
    exact_mod_cast hpos

theorem square_root_of_discriminant : ∃ r, Number.squareRoot (discriminantOf x y z) = .ok r ∧
    Number.Denotes r ((a * p - a * q : ℤ) : ℚ) := by
  obtain ⟨n, hn⟩ : ∃ n : ℕ, a * p - a * q = n := Int.eq_ofNat_of_zero_le (sub_pos.mpr hlt).le
  have hleft := abs_le.mp h.left
  have hright := abs_le.mp h.right
  have hn26 : n < 2 ^ 26 := by omega
  have hd := h.discriminant_denotes
  rw [hn] at hd
  refine ⟨Float.ofNat n, Number.square_root_of_square (by omega) hn26 (by exact_mod_cast hd), ?_⟩
  rw [hn]
  exact_mod_cast Number.denotes_of_nat (hn26.trans (by norm_num))

omit hlt in
/-- The two quotients of the formulas, with an exact square root. -/
theorem quotients {r : Float} (hr : Number.Denotes r ((a * p - a * q : ℤ) : ℚ)) :
    withoutNegativeZero ((-y + r) / (2.0 * x)) = Float.ofInt p ∧
      withoutNegativeZero ((-y - r) / (2.0 * x)) = Float.ofInt q := by
  have hleft := abs_le.mp h.left
  have hright := abs_le.mp h.right
  have hplus : a * p + a * q + (a * p - a * q) = 2 * a * p := by ring
  have hminus : a * p + a * q - (a * p - a * q) = 2 * a * q := by ring
  constructor
  · apply h.quotient _ (h.root_left.trans_lt (by norm_num))
    rw [← hplus]
    apply h.linear_negated.add_integer hr
    rw [abs_lt]
    omega
  · apply h.quotient _ (h.swap.root_left.trans_lt (by norm_num))
    rw [← hminus]
    apply h.linear_negated.sub_integer hr
    rw [abs_lt]
    omega

/-- Distinct roots: the square root of the discriminant leads to both. -/
theorem two_roots_of_lt : ofCoefficients x y z =
    .ok ⟨.twoReals, some (Float.ofInt ((a * p - a * q) ^ 2)),
      [.real (Float.ofInt p), .real (Float.ofInt q)]⟩ := by
  obtain ⟨hvalue, hcounts, hpositive⟩ := h.discriminant_of_lt hlt
  obtain ⟨r, hroot, hr⟩ := h.square_root_of_discriminant hlt
  obtain ⟨hplus, hminus⟩ := h.quotients hr
  rw [ofCoefficients, h.lead_counts, quadratic]
  dsimp only
  rw [hcounts, if_neg Bool.false_ne_true, if_pos hpositive, hroot, map_ok, hplus, hminus, hvalue]
  rfl

end Distinct
end Expanded

theorem expanded_of_integers {a p q : ℤ} (h : Moderate a p q) :
    Expanded a p q (Float.ofInt a) (Float.ofInt (-a * (p + q))) (Float.ofInt (a * p * q)) := by
  have hlead := abs_le.mp h.lead
  have hleft := abs_le.mp h.left
  have hright := abs_le.mp h.right
  refine ⟨h, Number.denotes_of_int (by rw [abs_lt]; omega), ?_, Number.denotes_of_int h.constant_lt⟩
  rw [neg_mul]
  apply Number.denotes_of_int
  rw [mul_add, abs_lt]
  omega

end Solution

/-! ## Tables with integer roots -/

namespace Table

/-- The equation `a * (X - p) * (X - q) = 0` is solved exactly; a root zero is `0.0`, which is what
`Float.ofInt 0` stands for. -/
theorem solve_integer_roots {t : Table} {a p q : ℤ} (ha : a ≠ 0)
    (hbound : |a| * max 1 (max |p| |q|) ≤ 2 ^ 24) (hta : t.a = Float.ofInt a)
    (htb : t.b = Float.ofInt (-a * (p + q))) (htc : t.c = Float.ofInt (a * p * q)) :
    t.solve.result = .ok
      { outcome := if p = q then .doubleRoot else .twoReals
        discriminant := some (if p = q then 0.0 else Float.ofInt (a ^ 2 * (p - q) ^ 2))
        roots := [.real (Float.ofInt (min p q)), .real (Float.ofInt (max p q))] } := by
  have hmoderate := Solution.moderate_of_bound ha hbound
  have h := Solution.expanded_of_integers hmoderate
  rw [← hta, ← htb, ← htc] at h
  have hp := hmoderate.root_left.trans_lt (by norm_num : (2 ^ 24 : ℤ) < 2 ^ 53)
  have hq := hmoderate.swap.root_left.trans_lt (by norm_num : (2 ^ 24 : ℤ) < 2 ^ 53)
  have hsquare (r s : ℤ) : (a * r - a * s) ^ 2 = a ^ 2 * (r - s) ^ 2 := by ring
  rw [result_solve]
  rcases lt_trichotomy (a * p) (a * q) with hlt | heq | hlt
  · have hpq : p ≠ q := ne_of_apply_ne (a * ·) hlt.ne
    rw [h.swap.two_roots_of_lt hlt, if_neg hpq, if_neg hpq, hsquare, sub_sq_comm, map_ok,
      Solution.sorted, Root.sort_integers hq hp, min_comm, max_comm]
  · have hpq : p = q := mul_left_cancel₀ ha heq
    subst hpq
    rw [h.double_root rfl, if_pos rfl, if_pos rfl, map_ok, Solution.sorted, Root.sort_integers hp hp]
  · have hpq : p ≠ q := ne_of_apply_ne (a * ·) hlt.ne'
    rw [h.two_roots_of_lt hlt, if_neg hpq, if_neg hpq, hsquare, map_ok, Solution.sorted,
      Root.sort_integers hp hq]

theorem solve_integer_roots_sample :
    (Table.ofList [⟨-3.0, .number 2.0⟩, ⟨9.0, .number 1.0⟩, ⟨30.0, .number 0.0⟩]).solve.result =
      .ok ⟨.twoReals, some (Float.ofInt 441), [.real (Float.ofInt (-2)), .real (Float.ofInt 5)]⟩ :=
  solve_integer_roots (a := -3) (p := 5) (q := -2) (by decide) (by decide) (by decide +kernel)
    (by decide +kernel) (by decide +kernel)

end Table
end Trinomial
