import Mathlib.NumberTheory.Zsqrtd.GaussianInt
import Trinomial.Complex.Division
import Trinomial.Proofs.Number.Floor

/-! # Remainders of Gaussian integers

A complex number with integers for its parts represents a Gaussian integer. As long as the parts are moderate
all steps of a division but the quotient are exact, and the quotient rounded down is the exact one rounded
down. So the remainder is exact too.
-/
set_option autoImplicit false

namespace Trinomial.ComplexNumber

open Number (Denotes IsNearest)

/-! ## Quotients rounded down -/

/-- The exact quotient with both parts rounded down. -/
def quotient (g h : GaussianInt) : GaussianInt :=
  ⟨⌊((g * star h).re / h.norm : ℚ)⌋, ⌊((g * star h).im / h.norm : ℚ)⌋⟩

section Quotient
variable {g h : GaussianInt}

theorem complex_div_re : ((g : ℂ) / h).re = (((g * star h).re / h.norm : ℚ) : ℝ) := by
  push_cast
  rw [Complex.div_re, ← add_div, GaussianInt.intCast_real_norm]
  simp

theorem complex_div_im : ((g : ℂ) / h).im = (((g * star h).im / h.norm : ℚ) : ℝ) := by
  push_cast
  rw [Complex.div_im, ← sub_div, GaussianInt.intCast_real_norm]
  simp [add_comm, sub_eq_add_neg]

theorem quotient_re : (quotient g h).re = ⌊((g : ℂ) / h).re⌋ := by
  rw [complex_div_re, Rat.floor_cast]
  rfl

theorem quotient_im : (quotient g h).im = ⌊((g : ℂ) / h).im⌋ := by
  rw [complex_div_im, Rat.floor_cast]
  rfl

variable (hh : h ≠ 0)
include hh

/-- What is left is the fractional part of the quotient, times the divisor. -/
theorem remainder_div :
    ((g - h * quotient g h : GaussianInt) : ℂ) / h =
      ⟨Int.fract ((g : ℂ) / h).re, Int.fract ((g : ℂ) / h).im⟩ := by
  have hne : (h : ℂ) ≠ 0 := by rwa [ne_eq, GaussianInt.toComplex_eq_zero]
  rw [GaussianInt.toComplex_sub, GaussianInt.toComplex_mul, sub_div, mul_div_cancel_left₀ _ hne,
    GaussianInt.toComplex_def₂ (quotient g h), quotient_re, quotient_im]
  rfl

theorem remainder_norm_lt : (g - h * quotient g h).norm < 2 * h.norm := by
  have hpos : 0 < Complex.normSq (h : ℂ) := by
    rw [Complex.normSq_pos, ne_eq, GaussianInt.toComplex_eq_zero]
    exact hh
  have hratio : Complex.normSq (((g - h * quotient g h : GaussianInt) : ℂ) / h) < 2 := by
    rw [remainder_div hh, Complex.normSq_mk]
    nlinarith [Int.fract_nonneg ((g : ℂ) / h).re, Int.fract_lt_one ((g : ℂ) / h).re,
      Int.fract_nonneg ((g : ℂ) / h).im, Int.fract_lt_one ((g : ℂ) / h).im]
  rw [Complex.normSq_div, div_lt_iff₀ hpos, ← GaussianInt.intCast_real_norm,
    ← GaussianInt.intCast_real_norm] at hratio
  exact_mod_cast hratio

end Quotient

/-! ## Bounded parts -/

/-- Both parts are at most `n` in size. -/
structure Within (n : ℤ) (g : GaussianInt) : Prop where
  re : |g.re| ≤ n
  im : |g.im| ≤ n

section Within
variable {g h : GaussianInt} {m n : ℤ}

theorem abs_product_le {a b : ℤ} (ha : |a| ≤ m) (hb : |b| ≤ n) : |a * b| ≤ m * n := by
  rw [abs_mul]
  exact mul_le_mul ha hb (abs_nonneg b) ((abs_nonneg a).trans ha)

theorem Within.star (hg : Within n g) : Within n (star g) :=
  ⟨hg.re, (abs_neg g.im).trans_le hg.im⟩

theorem Within.mul (hg : Within m g) (hh : Within n h) : Within (2 * (m * n)) (g * h) := by
  have hrr := abs_le.mp (abs_product_le hg.re hh.re)
  have hii := abs_le.mp (abs_product_le hg.im hh.im)
  have hri := abs_le.mp (abs_product_le hg.re hh.im)
  have hir := abs_le.mp (abs_product_le hg.im hh.re)
  constructor
  · rw [Zsqrtd.re_mul, abs_le, mul_assoc, neg_one_mul]
    omega
  · rw [Zsqrtd.im_mul, abs_le]
    omega

theorem Within.norm_le (hg : Within n g) : g.norm ≤ 2 * (n * n) := by
  have hre := abs_le.mp (abs_product_le hg.re hg.re)
  have him := abs_le.mp (abs_product_le hg.im hg.im)
  rw [Zsqrtd.norm_def, mul_assoc, neg_one_mul]
  omega

theorem floor_within {a d : ℤ} (hd : 0 < d) (ha : |a| ≤ n * d) : |⌊(a / d : ℚ)⌋| ≤ n := by
  have hpos : (0 : ℚ) < d := by exact_mod_cast hd
  obtain ⟨hlo, hhi⟩ := abs_le.mp ha
  rw [abs_le, Int.le_floor, Int.floor_le_iff, le_div_iff₀ hpos, div_lt_iff₀ hpos]
  refine ⟨?_, lt_of_le_of_lt (b := (n * d : ℚ)) (by exact_mod_cast hhi) (by linarith)⟩
  rw [Int.cast_neg, neg_mul]
  exact_mod_cast hlo

/-- A bound of the dividend is one of the quotient: no Gaussian integer but zero is smaller than one. -/
theorem Within.quotient (hg : Within n g) (hh : h ≠ 0) : Within n (quotient g h) := by
  have hnorm := GaussianInt.norm_pos.mpr hh
  have hn : 0 ≤ n := (abs_nonneg _).trans hg.re
  have hsize : |h.re| + |h.im| ≤ h.norm := by
    rw [Zsqrtd.norm_def]
    have hre := Int.natAbs_le_self_sq h.re
    have him := Int.natAbs_le_self_sq h.im
    rw [Int.natCast_natAbs] at hre him
    linarith
  have hbound := mul_le_mul_of_nonneg_left hsize hn
  constructor
  · refine floor_within hnorm ?_
    have hrr := abs_le.mp (abs_product_le hg.re le_rfl (b := h.re))
    have hii := abs_le.mp (abs_product_le hg.im le_rfl (b := h.im))
    rw [Zsqrtd.re_mul, Zsqrtd.re_star, Zsqrtd.im_star, abs_le]
    constructor <;> linarith
  · refine floor_within hnorm ?_
    have hri := abs_le.mp (abs_product_le hg.re le_rfl (b := h.im))
    have hir := abs_le.mp (abs_product_le hg.im le_rfl (b := h.re))
    rw [Zsqrtd.im_mul, Zsqrtd.re_star, Zsqrtd.im_star, abs_le]
    constructor <;> linarith

end Within

/-! ## Represented integers -/

/-- Both parts of `z` are integers, those of `g`. -/
structure Represents (z : ComplexNumber) (g : GaussianInt) : Prop where
  re : Denotes z.re g.re
  im : Denotes z.im g.im

namespace Represents
variable {z w : ComplexNumber} {g h : GaussianInt} {m n : ℤ}

theorem sub (hz : z.Represents g) (hw : w.Represents h) (hg : Within m g) (hh : Within n h)
    (hbound : m + n < 2 ^ 53) : (z - w).Represents (g - h) := by
  constructor
  · rw [Zsqrtd.re_sub]
    exact hz.re.sub_integer hw.re (((abs_sub _ _).trans (add_le_add hg.re hh.re)).trans_lt hbound)
  · rw [Zsqrtd.im_sub]
    exact hz.im.sub_integer hw.im (((abs_sub _ _).trans (add_le_add hg.im hh.im)).trans_lt hbound)

/-- The four products of parts are exact. -/
theorem product {x y : Float} {a b : ℤ} (hx : Denotes x a) (hy : Denotes y b) (ha : |a| ≤ m)
    (hb : |b| ≤ n) (hbound : 2 * (m * n) < 2 ^ 53) : Denotes (x * y) ((a * b : ℤ) : ℚ) := by
  have hsize := abs_product_le ha hb
  have hnonneg := abs_nonneg (a * b)
  exact hx.mul_integer hy (by omega)

section Products
variable (hz : z.Represents g) (hw : w.Represents h) (hg : Within m g) (hh : Within n h)
  (hbound : 2 * (m * n) < 2 ^ 53)
include hz hw hg hh hbound

theorem mul : (z * w).Represents (g * h) := by
  obtain ⟨hre, him⟩ := hg.mul hh
  constructor
  · have hparts : (g * h).re = g.re * h.re - g.im * h.im := by
      rw [Zsqrtd.re_mul, mul_assoc, neg_one_mul, sub_eq_add_neg]
    rw [hparts] at hre ⊢
    exact (product hz.re hw.re hg.re hh.re hbound).sub_integer
      (product hz.im hw.im hg.im hh.im hbound) (hre.trans_lt hbound)
  · have hparts : (g * h).im = g.re * h.im + h.re * g.im := by rw [Zsqrtd.im_mul, mul_comm g.im]
    rw [hparts] at him ⊢
    exact (product hz.re hw.im hg.re hh.im hbound).add_integer
      (product hw.re hz.im hh.re hg.im (by rwa [mul_comm n])) (him.trans_lt hbound)

theorem dividend_re : Denotes (z.re * w.re + z.im * w.im) (g * star h).re := by
  have hsize := (hg.mul hh.star).re
  have hparts : (g * star h).re = g.re * h.re + g.im * h.im := by
    rw [Zsqrtd.re_mul, Zsqrtd.re_star, Zsqrtd.im_star, mul_assoc, neg_one_mul, mul_neg, neg_neg]
  rw [hparts] at hsize ⊢
  exact (product hz.re hw.re hg.re hh.re hbound).add_integer
    (product hz.im hw.im hg.im hh.im hbound) (hsize.trans_lt hbound)

theorem dividend_im : Denotes (z.im * w.re - z.re * w.im) (g * star h).im := by
  have hsize := (hg.mul hh.star).im
  have hparts : (g * star h).im = g.im * h.re - g.re * h.im := by
    rw [Zsqrtd.im_mul, Zsqrtd.re_star, Zsqrtd.im_star, mul_neg, neg_add_eq_sub]
  rw [hparts] at hsize ⊢
  exact (product hz.im hw.re hg.im hh.re hbound).sub_integer
    (product hz.re hw.im hg.re hh.im hbound) (hsize.trans_lt hbound)

end Products

theorem norm_sq (hw : w.Represents h) (hh : Within n h) (hbound : 2 * (n * n) < 2 ^ 53) :
    Denotes w.normSq h.norm := by
  have hnorm : h.norm = (h * star h).re := by rw [← Zsqrtd.norm_eq_mul_conj, Zsqrtd.re_intCast]
  rw [hnorm]
  exact hw.dividend_re hw hh hh hbound

end Represents

/-! ## Division -/

section Division
variable {z w : ComplexNumber} {g h : GaussianInt}

/-- Zero is refused as a divisor, with any signs of its parts. -/
theorem zero_division (hw : w.isZero = true) : div z w = .error (.zeroDivision (.complex w)) := by
  obtain ⟨hre, him⟩ := Bool.and_eq_true_iff.mp hw
  obtain ⟨s, hs⟩ := Number.zero_parts_of_beq hre
  obtain ⟨t, ht⟩ := Number.zero_parts_of_beq him
  have hnegligible : Number.isNegligible w.normSq = true := by
    rw [normSq, ← Number.of_parts_parts w.re, ← Number.of_parts_parts w.im, hs, ht]
    cases s <;> cases t <;> decide
  rw [div, if_pos hnegligible]

/-- Rounded down the quotient is the one of the Gaussian integers. -/
theorem exists_quotient (hz : z.Represents g) (hw : w.Represents h) (hg : Within (2 ^ 25) g)
    (hh : Within (2 ^ 25) h) (hne : h ≠ 0) :
    ∃ q, div z w = .ok q ∧ q.floor.Represents (quotient g h) := by
  have hnorm := GaussianInt.norm_pos.mpr hne
  have hdivisor := hw.norm_sq hh (by norm_num)
  have hcounts : Number.isNegligible w.normSq = false := by
    refine Number.counts_of_one_le hdivisor ?_
    exact_mod_cast Int.one_le_abs hnorm.ne'
  have hdividend := hg.mul hh.star
  have hre := hz.dividend_re hw hg hh (by norm_num)
  have him := hz.dividend_im hw hg hh (by norm_num)
  refine ⟨_, by rw [div, hcounts, if_neg Bool.false_ne_true], ?_, ?_⟩
  · exact Number.denotes_floor_div hnorm hdividend.re hh.norm_le hre hdivisor
  · exact Number.denotes_floor_div hnorm hdividend.im hh.norm_le him hdivisor

theorem exists_remainder (hz : z.Represents g) (hw : w.Represents h) (hg : Within (2 ^ 25) g)
    (hh : Within (2 ^ 25) h) (hne : h ≠ 0) :
    ∃ r, rem z w = .ok r ∧ r.Represents (g - h * quotient g h) := by
  obtain ⟨q, hdiv, hq⟩ := exists_quotient hz hw hg hh hne
  have hquotient := hg.quotient hne
  refine ⟨z - w * q.floor, by rw [rem, hdiv, map_ok], ?_⟩
  exact hz.sub (hw.mul hq hh hquotient (by norm_num)) hg (hh.mul hquotient) (by norm_num)

end Division

/-- For integral parts up to `2 ^ 25` the remainder is exact: the dividend less the divisor times the exact
quotient rounded down. A zero divisor is refused, whatever the dividend. -/
theorem remainder_of_gaussian_integers (z w : ComplexNumber) :
    (∀ g h : GaussianInt, z.Represents g → w.Represents h → Within (2 ^ 25) g → Within (2 ^ 25) h →
      h ≠ 0 → ∃ (r : ComplexNumber) (k q : GaussianInt), rem z w = .ok r ∧ r.Represents k ∧
        g - k = h * q ∧ q.re = ⌊((g : ℂ) / h).re⌋ ∧ q.im = ⌊((g : ℂ) / h).im⌋ ∧
        ((k : ℂ) / h).re ∈ Set.Ico 0 1 ∧ ((k : ℂ) / h).im ∈ Set.Ico 0 1 ∧ k.norm < 2 * h.norm) ∧
    (w.isZero = true → rem z w = .error (.zeroDivision (.complex w))) := by
  refine ⟨fun g h hz hw hg hh hne => ?_, fun hw => ?_⟩
  · obtain ⟨r, hrem, hr⟩ := exists_remainder hz hw hg hh hne
    refine ⟨r, _, quotient g h, hrem, hr, sub_sub_cancel g _, quotient_re, quotient_im, ?_, ?_,
      remainder_norm_lt hne⟩
    · rw [remainder_div hne]
      exact ⟨Int.fract_nonneg _, Int.fract_lt_one _⟩
    · rw [remainder_div hne]
      exact ⟨Int.fract_nonneg _, Int.fract_lt_one _⟩
  · rw [rem, zero_division hw, map_error]

theorem remainder_of_gaussian_integers_samples :
    (Represents ⟨-7.0, 5.0⟩ ⟨-7, 5⟩ ∧ Represents ⟨3.0, -1.0⟩ ⟨3, -1⟩ ∧
      ∃ (r : ComplexNumber) (k q : GaussianInt), rem ⟨-7.0, 5.0⟩ ⟨3.0, -1.0⟩ = .ok r ∧
        r.Represents k ∧ ⟨-7, 5⟩ - k = ⟨3, -1⟩ * q ∧
        q.re = ⌊((⟨-7, 5⟩ : GaussianInt) / (⟨3, -1⟩ : GaussianInt) : ℂ).re⌋ ∧
        q.im = ⌊((⟨-7, 5⟩ : GaussianInt) / (⟨3, -1⟩ : GaussianInt) : ℂ).im⌋ ∧
        ((k : ℂ) / (⟨3, -1⟩ : GaussianInt)).re ∈ Set.Ico 0 1 ∧
        ((k : ℂ) / (⟨3, -1⟩ : GaussianInt)).im ∈ Set.Ico 0 1 ∧ k.norm < 2 * 10) ∧
    (isZero ⟨0.0, -0.0⟩ = true ∧
      rem ⟨-7.0, 5.0⟩ ⟨0.0, -0.0⟩ = .error (.zeroDivision (.complex ⟨0.0, -0.0⟩))) := by
  have hseven : (-7.0 : Float) = Float.ofInt (-7) := by decide +kernel
  have hone : (-1.0 : Float) = Float.ofInt (-1) := by decide +kernel
  have hz : Represents ⟨-7.0, 5.0⟩ ⟨-7, 5⟩ := by
    rw [hseven]
    exact ⟨Number.denotes_of_int (n := -7) (by decide), Number.denotes_of_int (n := 5) (by decide)⟩
  have hw : Represents ⟨3.0, -1.0⟩ ⟨3, -1⟩ := by
    rw [hone]
    exact ⟨Number.denotes_of_int (n := 3) (by decide), Number.denotes_of_int (n := -1) (by decide)⟩
  have hzero : isZero ⟨0.0, -0.0⟩ = true := by decide
  obtain ⟨hexact, -⟩ := remainder_of_gaussian_integers ⟨-7.0, 5.0⟩ ⟨3.0, -1.0⟩
  exact ⟨⟨hz, hw, hexact _ _ hz hw ⟨by decide, by decide⟩ ⟨by decide, by decide⟩ (by decide)⟩,
    hzero, (remainder_of_gaussian_integers _ _).2 hzero⟩

end Trinomial.ComplexNumber
