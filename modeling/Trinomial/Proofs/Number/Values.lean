import Trinomial.Proofs.Number.Range

/-! # The values of numbers

A finite number stands for a rational. Comparison of finite numbers is comparison of their values, and
numbers of one value are equal, except that zero has two signs. Every multiple of a power of two with at
most 53 binary digits is the value of a number, and large numbers have only such values.
-/
set_option autoImplicit false

namespace Trinomial.Number
open Float.Model Float.Model.UnpackedFloat
open Solution (withoutNegativeZero)

/-! ## Values -/

/-- The sign as a factor. -/
def signum : Sign → ℚ
  | .positive => 1
  | .negative => -1

/-- The rational that the parts of a finite number come to. -/
def valueOf : UnpackedFloat → ℚ
  | .finite s m e _ => signum s * (m * 2 ^ e)
  | _ => 0

/-- The rational that a finite number stands for. -/
def value (x : Float) : ℚ := valueOf (parts x)

/-- The number is finite and stands for `q`. -/
structure Denotes (x : Float) (q : ℚ) : Prop where
  finite : x.isFinite = true
  value_eq : value x = q

section Signs
variable (s t : Sign)

theorem signum_neg : signum (-s) = -signum s := by
  cases s <;> simp [signum]

theorem signum_mul : signum (s * t) = signum s * signum t := by
  cases s <;> cases t <;> simp [signum]

theorem signum_div : signum (s / t) = signum s / signum t := by
  have hdiv : s / t = s * t := by cases s <;> cases t <;> rfl
  rw [hdiv]
  cases s <;> cases t <;> simp [signum]

theorem abs_signum : |signum s| = 1 := by
  cases s <;> simp [signum]

theorem cast_apply (k : ℤ) : (s.apply k : ℚ) = signum s * k := by
  cases s with
  | positive => exact (one_mul _).symm
  | negative => exact (Int.cast_neg k).trans (neg_one_mul _).symm

end Signs

section Parts
variable {s t : Sign} {m n : ℕ} {e f : ℤ} {hm : 0 < m} {hn : 0 < n} {u v : UnpackedFloat}

theorem size_pos (hm : 0 < m) (e : ℤ) : (0 : ℚ) < m * 2 ^ e := by positivity

theorem value_of_positive : valueOf (.finite .positive m e hm) = m * 2 ^ e := one_mul _

theorem value_of_negative : valueOf (.finite .negative m e hm) = -(m * 2 ^ e) := neg_one_mul _

theorem value_of_neg (u : UnpackedFloat) : valueOf u.neg = -valueOf u := by
  cases u with
  | finite s m e hm =>
    change signum (-s) * (m * 2 ^ e) = -(signum s * (m * 2 ^ e))
    rw [signum_neg, neg_mul]
  | _ => exact neg_zero.symm

theorem value_of_abs (u : UnpackedFloat) : valueOf u.abs = |valueOf u| := by
  cases u with
  | finite s m e hm =>
    change valueOf (.finite .positive m e hm) = |signum s * (m * 2 ^ e)|
    rw [value_of_positive, abs_mul, abs_signum, one_mul, abs_of_pos (size_pos hm e)]
  | _ => exact abs_zero.symm

/-- What stands further out among the numbers of one sign is larger. -/
theorem lt_of_place_lt (h : Fits (.finite s m e hm)) (h' : Fits (.finite t n f hn))
    (hlt : place m e < place n f) : (m * 2 ^ e : ℚ) < n * 2 ^ f := by
  obtain ⟨hm53, hmin, -, hnormal⟩ := h
  obtain ⟨hn53, hmin', -, hnormal'⟩ := h'
  rw [place, place] at hlt
  rcases lt_trichotomy e f with hef | rfl | hef
  · have hm' : (m : ℚ) < 2 ^ 53 := by exact_mod_cast hm53
    have hn' : (2 ^ 52 : ℚ) ≤ n := by exact_mod_cast hnormal'.resolve_right (by omega)
    calc (m * 2 ^ e : ℚ) < 2 ^ 53 * 2 ^ e := by gcongr
      _ = 2 ^ 52 * 2 ^ (e + 1) := by
        rw [zpow_add₀ (by norm_num)]
        ring
      _ ≤ n * 2 ^ f := by
        gcongr
        · norm_num
        · omega
  · have hmn : (m : ℚ) < n := by exact_mod_cast (by omega : m < n)
    gcongr
  · omega

theorem value_lt_of_ordinal (hu : Fits u) (hv : Fits v) (hu' : u.isFinite = true)
    (hv' : v.isFinite = true) (h : ordinalOf u < ordinalOf v) : valueOf u < valueOf v := by
  cases u with
  | notANumber => cases hu'
  | infinity s => cases hu'
  | zero s =>
    cases v with
    | notANumber => cases hv'
    | infinity t => cases hv'
    | zero t => exact absurd h (lt_irrefl _)
    | finite t n f hn =>
      cases t with
      | positive =>
        rw [value_of_positive]
        exact size_pos hn f
      | negative => exact absurd h (neg_neg_of_pos (place_bounds hv).1).le.not_gt
  | finite s m e hm =>
    cases v with
    | notANumber => cases hv'
    | infinity t => cases hv'
    | zero t =>
      cases s with
      | positive => exact absurd h (place_bounds hu).1.le.not_gt
      | negative =>
        rw [value_of_negative]
        exact neg_neg_of_pos (size_pos hm e)
    | finite t n f hn =>
      cases s <;> cases t
      · rw [value_of_negative, value_of_negative]
        exact neg_lt_neg (lt_of_place_lt hv hu (neg_lt_neg_iff.mp h))
      · rw [value_of_negative, value_of_positive]
        exact (neg_neg_of_pos (size_pos hm e)).trans (size_pos hn f)
      · have hpos := (place_bounds hu).1
        have hpos' := (place_bounds hv).1
        have hlt : place m e < -place n f := h
        omega
      · rw [value_of_positive, value_of_positive]
        exact lt_of_place_lt hu hv h

end Parts

/-! ## Comparison of values -/

section Numbers
variable {x y : Float} {p q : ℚ}

theorem value_neg (x : Float) : value (-x) = -value x := by
  rw [value, parts_neg, value_of_neg, value]

theorem value_abs (x : Float) : value x.abs = |value x| := by
  rw [value, parts_abs, value_of_abs, value]

theorem lt_of_ordinal (hx : x.isFinite = true) (hy : y.isFinite = true)
    (h : ordinal x < ordinal y) : value x < value y :=
  value_lt_of_ordinal (parts_fits x) (parts_fits y) hx hy h

/-- Numbers at one place of the line are one number, or zeros. -/
theorem equal_of_ordinal (hx : x.isFinite = true) (hy : y.isFinite = true)
    (h : ordinal x = ordinal y) : withoutNegativeZero x = withoutNegativeZero y := by
  have hbeq := (beq_iff_ordinal (is_nan_of_finite hx) (is_nan_of_finite hy)).mpr h
  obtain ⟨-, -, rfl | ⟨rfl, rfl⟩ | ⟨rfl, rfl⟩⟩ := Float.beq_iff_ne_nan_and_eq.mp hbeq <;> rfl

theorem blind_value : Blind value := by rfl

theorem lt_iff_value (hx : x.isFinite = true) (hy : y.isFinite = true) :
    x < y ↔ value x < value y := by
  rw [lt_iff_ordinal (is_nan_of_finite hx) (is_nan_of_finite hy)]
  refine ⟨lt_of_ordinal hx hy, fun h => ?_⟩
  rcases lt_trichotomy (ordinal x) (ordinal y) with hlt | heq | hgt
  · exact hlt
  · exact absurd (blind_value.congr (equal_of_ordinal hx hy heq)) h.ne
  · exact absurd h (lt_of_ordinal hy hx hgt).le.not_gt

theorem le_iff_value (hx : x.isFinite = true) (hy : y.isFinite = true) :
    x ≤ y ↔ value x ≤ value y := by
  have hx' := is_nan_of_finite hx
  have hy' := is_nan_of_finite hy
  have hgt := (lt_iff_ordinal hy' hx').symm.trans (lt_iff_value hy hx)
  rw [le_iff_ordinal hx' hy', ← not_lt, ← not_lt, hgt]

/-- Finite numbers are equal when their values are. -/
theorem beq_iff_value (hx : x.isFinite = true) (hy : y.isFinite = true) :
    (x == y) = true ↔ value x = value y := by
  have hx' := is_nan_of_finite hx
  have hy' := is_nan_of_finite hy
  have hle := (le_iff_ordinal hx' hy').symm.trans (le_iff_value hx hy)
  have hge := (le_iff_ordinal hy' hx').symm.trans (le_iff_value hy hx)
  rw [beq_iff_ordinal hx' hy', le_antisymm_iff, le_antisymm_iff, hle, hge]

/-- Numbers of one value are equal, except for the sign of zero. -/
theorem Denotes.equal (hx : Denotes x q) (hy : Denotes y q) :
    withoutNegativeZero x = withoutNegativeZero y := by
  have heq : value x = value y := hx.value_eq.trans hy.value_eq.symm
  rcases lt_trichotomy (ordinal x) (ordinal y) with hlt | h | hgt
  · exact absurd heq (lt_of_ordinal hx.finite hy.finite hlt).ne
  · exact equal_of_ordinal hx.finite hy.finite h
  · exact absurd heq (lt_of_ordinal hy.finite hx.finite hgt).ne'

theorem Denotes.ne_negative_zero (hx : Denotes x q) (hq : q ≠ 0) : x ≠ -0.0 := by
  rintro rfl
  exact hq hx.value_eq.symm

theorem Denotes.eq (hx : Denotes x q) (hy : Denotes y q) (hq : q ≠ 0) : x = y := by
  have h := hx.equal hy
  rwa [without_negative_zero_eq (hx.ne_negative_zero hq),
    without_negative_zero_eq (hy.ne_negative_zero hq)] at h

theorem Denotes.lt_iff (hx : Denotes x p) (hy : Denotes y q) : x < y ↔ p < q := by
  rw [lt_iff_value hx.finite hy.finite, hx.value_eq, hy.value_eq]

theorem Denotes.le_iff (hx : Denotes x p) (hy : Denotes y q) : x ≤ y ↔ p ≤ q := by
  rw [le_iff_value hx.finite hy.finite, hx.value_eq, hy.value_eq]

theorem Denotes.neg (hx : Denotes x q) : Denotes (-x) (-q) :=
  ⟨finite_neg hx.finite, by rw [value_neg, hx.value_eq]⟩

theorem Denotes.abs (hx : Denotes x q) : Denotes x.abs |q| :=
  ⟨(abs_finite hx.finite).1, by rw [value_abs, hx.value_eq]⟩

/-- A finite number is a zero, or its parts come to its value. -/
theorem Denotes.cases (hx : Denotes x q) : (∃ s, parts x = .zero s ∧ q = 0) ∨
    ∃ s m e, ∃ hm : 0 < m, parts x = .finite s m e hm ∧ Fits (.finite s m e hm) ∧
      q = signum s * (m * 2 ^ e) := by
  obtain ⟨hfinite, rfl⟩ := hx
  have hfits := parts_fits x
  change (parts x).isFinite = true at hfinite
  rw [value]
  cases hp : parts x with
  | notANumber =>
    rw [hp] at hfinite
    cases hfinite
  | infinity s =>
    rw [hp] at hfinite
    cases hfinite
  | zero s => exact .inl ⟨s, rfl, rfl⟩
  | finite s m e hm => exact .inr ⟨s, m, e, hm, rfl, hp ▸ hfits, rfl⟩

end Numbers
end Trinomial.Number
