import Trinomial.Proofs.Number.Negation
import Trinomial.SquareRoot

/-! # The range of numbers

What is finite was computed from finite operands, and finite operands never give what is not a number,
unless zero is divided by zero. So a root that Newton's iteration finds is finite, and so is its radicand.
-/
set_option autoImplicit false

namespace Trinomial.Number
open Float.Model Float.Model.UnpackedFloat

/-! ## Parts -/

section Parts
variable {s : Sign} {m : ℕ} {e : ℤ} {a : Accuracy} (hm : 0 < m)

theorem parts_beyond (h : 971 < e) : parts (ofParts (.finite s m e hm)) = .infinity s := by
  change UnpackedFloat.unpack Format.binary64 (UnpackedFloat.pack Format.binary64 _) = _
  have hbias : e + (Format.binary64.exponentBias : Int) + (52 : Nat) = e + 1075 := by
    rw [add_assoc]
    rfl
  simp only [UnpackedFloat.pack, hbias]
  rw [if_pos (by omega)]
  cases s <;> rfl

theorem finite_within (h : e ≤ 971) : (ofParts (.finite s m e hm)).isFinite = true := by
  change (UnpackedFloat.unpack Format.binary64 (UnpackedFloat.pack Format.binary64 _)).isFinite = true
  have hbias : e + (Format.binary64.exponentBias : Int) + (52 : Nat) = e + 1075 := by
    rw [add_assoc]
    rfl
  have hnormal : BitVec.ofNat 11 (e + 1075).toNat ≠ -1#11 := by
    rw [Ne, eq_ones_iff, BitVec.toNat_ofNat]
    omega
  simp only [UnpackedFloat.pack, hbias]
  rw [if_neg (by omega)]
  split_ifs
  · simp only [UnpackedFloat.unpack, unpackExponent_packComponents]
    rw [if_neg hnormal]
    split_ifs <;> rfl
  · simp only [UnpackedFloat.unpack, unpackExponent_packComponents]
    rw [if_neg (by decide)]
    split_ifs <;> rfl

theorem is_nan_of_parts : (ofParts (.finite s m e hm)).isNaN = false := by
  rcases le_or_gt e 971 with h | h
  · exact is_nan_of_finite (finite_within hm h)
  · change (parts _).isNaN = false
    rw [parts_beyond hm h]
    rfl

omit hm in
theorem is_nan_of_rounded : (ofParts (roundWithAccuracy Format.binary64 s m e a)).isNaN = false := by
  rw [roundWithAccuracy]
  dsimp only
  split_ifs
  · cases s <;> rfl
  · exact is_nan_of_parts _

end Parts

/-! ## Finite operands -/

theorem infinity_not_finite (s : Sign) : (ofParts (.infinity s)).isFinite = false := by
  cases s <;> rfl

theorem nan_not_finite : (ofParts .notANumber).isFinite = false := by rfl

section Operands
variable {u v : UnpackedFloat} {x y : Float}

theorem finite_parts_of_mul (h : (ofParts (UnpackedFloat.mul Format.binary64 u v)).isFinite = true) :
    u.isFinite = true ∧ v.isFinite = true := by
  cases u <;> cases v <;>
    first
    | exact ⟨rfl, rfl⟩
    | simp only [UnpackedFloat.mul, infinity_not_finite, nan_not_finite, Bool.false_eq_true] at h

theorem finite_parts_of_add (h : (ofParts (UnpackedFloat.add Format.binary64 u v)).isFinite = true) :
    u.isFinite = true ∧ v.isFinite = true := by
  have hinfinite (s t : Sign) :
      (ofParts (if s == t then .infinity s else .notANumber)).isFinite = false := by
    cases s <;> cases t <;> rfl
  cases u <;> cases v <;>
    first
    | exact ⟨rfl, rfl⟩
    | simp only [UnpackedFloat.add, hinfinite, infinity_not_finite, nan_not_finite,
        Bool.false_eq_true] at h

theorem finite_parts_of_div (h : (ofParts (UnpackedFloat.div Format.binary64 u v)).isFinite = true) :
    u.isFinite = true := by
  cases u <;> cases v <;>
    first
    | rfl
    | simp only [UnpackedFloat.div, infinity_not_finite, nan_not_finite, Bool.false_eq_true] at h

theorem finite_of_mul (h : (x * y).isFinite = true) : x.isFinite = true ∧ y.isFinite = true :=
  finite_parts_of_mul h

theorem finite_of_add (h : (x + y).isFinite = true) : x.isFinite = true ∧ y.isFinite = true :=
  finite_parts_of_add h

theorem finite_of_sub (h : (x - y).isFinite = true) : x.isFinite = true ∧ y.isFinite = true := by
  rw [float_sub_eq] at h
  obtain ⟨hx, hy⟩ := finite_of_add h
  have hneg := finite_neg hy
  rw [float_neg_neg] at hneg
  exact ⟨hx, hneg⟩

theorem finite_of_div (h : (x / y).isFinite = true) : x.isFinite = true :=
  finite_parts_of_div h

theorem ordinal_le_last (y : Float) : ordinal y ≤ lastPlace := by
  have hlast : 0 < lastPlace := by decide
  have hfits := parts_fits y
  rw [ordinal]
  cases hy : parts y with
  | notANumber => exact hlast.le
  | infinity s =>
    cases s with
    | positive => exact le_refl lastPlace
    | negative => exact (neg_lt_self hlast).le
  | zero s => exact hlast.le
  | finite s m e hm =>
    rw [hy] at hfits
    obtain ⟨hpos, hlt⟩ := place_bounds hfits
    cases s with
    | positive => exact hlt.le
    | negative => exact ((neg_neg_of_pos hpos).trans hlast).le

/-- What lies below a bound in size is finite. -/
theorem finite_of_abs_lt (h : x.abs < y) : x.isFinite = true := by
  obtain ⟨hx, hy⟩ := is_nan_of_lt h
  rw [lt_iff_ordinal hx hy, ordinal, parts_abs] at h
  change (parts x.abs).isNaN = false at hx
  change (parts x).isFinite = true
  rw [parts_abs] at hx
  cases hp : parts x with
  | notANumber =>
    rw [hp] at hx
    cases hx
  | infinity s =>
    rw [hp] at h
    exact absurd (ordinal_le_last y) (not_le.mpr h)
  | zero s => rfl
  | finite s m e hm => rfl

/-- What lies between finite numbers is finite. -/
theorem finite_of_between {z : Float} (hx : x.isFinite = true) (hz : z.isFinite = true) (h : x ≤ y)
    (h' : y ≤ z) : y.isFinite = true := by
  rw [le_iff] at h h'
  change (parts x).isFinite = true at hx
  change (parts z).isFinite = true at hz
  change (parts y).isFinite = true
  cases hy : parts y with
  | notANumber =>
    rw [hy] at h
    cases hp : parts x <;> rw [hp] at h <;> cases h
  | infinity s =>
    rw [hy] at h h'
    cases s with
    | positive =>
      cases hp : parts z with
      | infinity t =>
        rw [hp] at hz
        cases hz
      | _ =>
        rw [hp] at h'
        cases h'
    | negative =>
      cases hp : parts x with
      | infinity t =>
        rw [hp] at hx
        cases hx
      | _ =>
        rw [hp] at h
        cases h
  | zero s => rfl
  | finite s m e hm => rfl

theorem finite_of_negligible (h : isNegligible x = true) : x.isFinite = true := by
  rw [is_negligible_eq, decide_eq_true_iff] at h
  exact finite_of_abs_lt h

theorem not_finite_of_special (h : x.isInf = true ∨ x.isNaN = true) : x.isFinite = false := by
  change (parts x).isInf = true ∨ (parts x).isNaN = true at h
  change (parts x).isFinite = false
  cases hx : parts x <;> rw [hx] at h <;> first | rfl | cases h <;> contradiction

end Operands

/-! ## Results that are numbers -/

section Results
variable {u v : UnpackedFloat} {x y : Float}

theorem parts_add_not_nan (hu : u.isFinite = true) (hv : v.isFinite = true) :
    (ofParts (UnpackedFloat.add Format.binary64 u v)).isNaN = false := by
  cases u with
  | notANumber => cases hu
  | infinity s => cases hu
  | zero s =>
    cases v with
    | notANumber => cases hv
    | infinity t => cases hv
    | zero t => cases s <;> cases t <;> rfl
    | finite t n f hn => exact is_nan_of_parts hn
  | finite s m e hm =>
    cases v with
    | notANumber => cases hv
    | infinity t => cases hv
    | zero t => exact is_nan_of_parts hm
    | finite t n f hn =>
      simp only [UnpackedFloat.add, UnpackedFloat.normalize]
      split
      · exact is_nan_of_rounded
      · rfl
      · exact is_nan_of_rounded

theorem parts_div_not_nan (hu : u.isNaN = false) {s : Sign} {m : ℕ} {e : ℤ} {hm : 0 < m} :
    (ofParts (UnpackedFloat.div Format.binary64 u (.finite s m e hm))).isNaN = false := by
  cases u with
  | notANumber => cases hu
  | infinity t =>
    rw [UnpackedFloat.div]
    cases t / s <;> rfl
  | zero t =>
    rw [UnpackedFloat.div]
    cases t / s <;> rfl
  | finite t n f hn => exact is_nan_of_rounded

theorem parts_mul_not_nan (hv : v.isNaN = false) {s : Sign} {m : ℕ} {e : ℤ} {hm : 0 < m} :
    (ofParts (UnpackedFloat.mul Format.binary64 (.finite s m e hm) v)).isNaN = false := by
  cases v with
  | notANumber => cases hv
  | infinity t =>
    rw [UnpackedFloat.mul]
    cases s * t <;> rfl
  | zero t =>
    rw [UnpackedFloat.mul]
    cases s * t <;> rfl
  | finite t n f hn => exact is_nan_of_rounded

theorem parts_square_not_nan (hu : u.isNaN = false) :
    (ofParts (UnpackedFloat.mul Format.binary64 u u)).isNaN = false := by
  cases u with
  | notANumber => cases hu
  | infinity s => cases s <;> rfl
  | zero s => cases s <;> rfl
  | finite s m e hm => exact is_nan_of_rounded

theorem parts_quotient_not_nan (hv : v.isNaN = false) {s : Sign} {m : ℕ} {e : ℤ} {hm : 0 < m} :
    (ofParts (UnpackedFloat.div Format.binary64 (.finite s m e hm) v)).isNaN = false := by
  cases v with
  | notANumber => cases hv
  | infinity t =>
    rw [UnpackedFloat.div]
    cases s / t <;> rfl
  | zero t =>
    rw [UnpackedFloat.div]
    cases s / t <;> rfl
  | finite t n f hn => exact is_nan_of_rounded

theorem add_not_nan (hx : x.isFinite = true) (hy : y.isFinite = true) : (x + y).isNaN = false :=
  parts_add_not_nan hx hy

theorem sub_not_nan (hx : x.isFinite = true) (hy : y.isFinite = true) : (x - y).isNaN = false := by
  rw [float_sub_eq]
  exact add_not_nan hx (finite_neg hy)

theorem div_not_nan (hx : x.isNaN = false) {s : Sign} {m : ℕ} {e : ℤ} {hm : 0 < m}
    (hy : parts y = .finite s m e hm) : (x / y).isNaN = false := by
  rw [div_eq, hy]
  exact parts_div_not_nan hx

theorem mul_not_nan {s : Sign} {m : ℕ} {e : ℤ} {hm : 0 < m} (hx : parts x = .finite s m e hm)
    (hy : y.isNaN = false) : (x * y).isNaN = false := by
  rw [mul_eq, hx]
  exact parts_mul_not_nan hy

theorem square_not_nan (hx : x.isNaN = false) : (x * x).isNaN = false :=
  parts_square_not_nan hx

theorem one_div_not_nan (hy : y.isNaN = false) : (1.0 / y).isNaN = false := by
  rw [div_eq, parts_one]
  exact parts_quotient_not_nan hy

theorem without_negative_zero_not_nan (hx : x.isNaN = false) :
    (Solution.withoutNegativeZero x).isNaN = false := by
  by_cases h : x = -0.0
  · rw [h]
    rfl
  · rw [without_negative_zero_eq h]
    exact hx

end Results

/-! ## Twice a number -/

theorem round_to_normal {m : ℕ} {e : ℤ} (s : Sign) (h : 2 ^ 52 ≤ m) (h' : m < 2 ^ 53)
    (he : -1074 ≤ e) : roundTo s (m * 2 ^ e) = .finite s m e (by omega) := by
  have hquot : (m : ℚ) * 2 ^ e / 2 ^ e = m := mul_div_cancel_right₀ _ (by positivity)
  have hlog2 : m.log2 = 52 := (Nat.log2_eq_iff (by omega)).mpr ⟨h, h'⟩
  apply round_to_eq (by omega) h'
  · rw [grid, log_eq (by omega) hquot.ge (by rw [hquot]; linarith), hlog2]
    omega
  · rw [hquot]
    exact nearest_below (le_refl _) (by linarith)

theorem parts_two : parts 2.0 = .finite .positive (2 ^ 52) (-51) (by decide) := by rfl

theorem parts_four : parts 4.0 = .finite .positive (2 ^ 52) (-50) (by decide) := by rfl

section Twice
variable {x : Float} {s : Sign} {m : ℕ} {e : ℤ} {hm : 0 < m} (hx : parts x = .finite s m e hm)
include hx

/-- Twice a normal number has the next exponent. -/
theorem double_of_normal (hn : 2 ^ 52 ≤ m) :
    2.0 * x = ofParts (.finite (.positive * s) m (e + 1) hm) := by
  have hfits := parts_fits x
  rw [hx] at hfits
  obtain ⟨hlt, hmin, -, -⟩ := hfits
  have hdouble : ((2 ^ 52 : ℕ) : ℚ) * 2 ^ (-51 : ℤ) * (m * 2 ^ e) = m * 2 ^ (e + 1) := by
    rw [zpow_add₀ (by norm_num)]
    norm_num
    ring
  rw [mul_eq, parts_two, hx, mul_finite (by decide) hm (.inl (Nat.le_mul_of_pos_right _ hm)), hdouble,
    round_to_normal _ hn hlt (by omega)]

/-- Twice a number below the normal ones has twice its significand. -/
theorem parts_double_of_subnormal (hn : m < 2 ^ 52) :
    parts (2.0 * x) = .finite (.positive * s) (2 * m) e (Nat.mul_pos two_pos hm) := by
  have hfits := parts_fits x
  rw [hx] at hfits
  obtain ⟨-, hmin, hmax, hnormal⟩ := hfits
  have hdouble : ((2 ^ 52 : ℕ) : ℚ) * 2 ^ (-51 : ℤ) * (m * 2 ^ e) = (2 * m : ℕ) * 2 ^ e := by
    push_cast
    norm_num
    ring
  have hfits : Fits (.finite s (2 * m) e (Nat.mul_pos two_pos hm)) :=
    ⟨by omega, hmin, hmax, .inr (hnormal.resolve_left (by omega))⟩
  rw [mul_eq, parts_two, hx, mul_finite (by decide) hm (.inl (Nat.le_mul_of_pos_right _ hm)), hdouble,
    round_to_fits hfits]
  exact parts_of_parts hfits

/-- Where four times a number is finite, twice the number is, and not zero. -/
theorem parts_double (h : (4.0 * x).isFinite = true) :
    ∃ t n f, ∃ hn : 0 < n, parts (2.0 * x) = .finite t n f hn := by
  have hfits := parts_fits x
  rw [hx] at hfits
  obtain ⟨hlt, hmin, -, -⟩ := hfits
  by_cases hn : 2 ^ 52 ≤ m
  · have hquadruple : ((2 ^ 52 : ℕ) : ℚ) * 2 ^ (-50 : ℤ) * (m * 2 ^ e) = m * 2 ^ (e + 2) := by
      rw [zpow_add₀ (by norm_num)]
      norm_num
      ring
    rw [mul_eq, parts_four, hx, mul_finite (by decide) hm (.inl (Nat.le_mul_of_pos_right _ hm)),
      hquadruple, round_to_normal _ hn hlt (by omega)] at h
    have hmax : e + 2 ≤ 971 := by
      by_contra hbeyond
      change (parts _).isFinite = true at h
      rw [parts_beyond hm (by omega)] at h
      cases h
    rw [double_of_normal hx hn]
    exact ⟨_, m, e + 1, hm, parts_of_parts ⟨hlt, by omega, by omega, .inl hn⟩⟩
  · exact ⟨_, _, _, _, parts_double_of_subnormal hx (by omega)⟩

end Twice

/-- Twice a number is zero for a zero only. -/
theorem zero_of_double {x : Float} {t : Sign} (h : parts (2.0 * x) = .zero t) :
    ∃ s, parts x = .zero s := by
  cases hx : parts x with
  | notANumber =>
    rw [mul_eq, parts_two, hx] at h
    cases h
  | infinity s =>
    rw [mul_eq, parts_two, hx] at h
    cases s <;> cases h
  | zero s => exact ⟨s, rfl⟩
  | finite s m e hm =>
    have hfits := parts_fits x
    rw [hx] at hfits
    obtain ⟨hlt, hmin, -, -⟩ := hfits
    by_cases hn : 2 ^ 52 ≤ m
    · rw [double_of_normal hx hn] at h
      by_cases hbeyond : 971 < e + 1
      · rw [parts_beyond hm hbeyond] at h
        cases h
      · have hfits : Fits (.finite (.positive * s) m (e + 1) hm) := ⟨hlt, by omega, by omega, .inl hn⟩
        rw [parts_of_parts hfits] at h
        cases h
    · rw [parts_double_of_subnormal hx (by omega)] at h
      cases h

theorem zero_parts_of_beq {x : Float} (h : (x == 0.0) = true) : ∃ s, parts x = .zero s := by
  obtain ⟨hx, -, hordinal⟩ := beq_iff.mp h
  rcases zero_of_ordinal hx hordinal with rfl | rfl
  · exact ⟨_, parts_zero⟩
  · exact ⟨_, parts_neg_zero⟩

/-- What counts is not zero, nor is twice of it. -/
theorem not_zero_of_counts {x : Float} (h : isNegligible x = false) :
    (x == 0.0) = false ∧ (2.0 * x == 0.0) = false := by
  have hcounts {s : Sign} (hzero : parts x = .zero s) : False := by
    rw [negligible_of_zero hzero] at h
    cases h
  constructor
  · rw [← Bool.not_eq_true]
    intro hbeq
    exact hcounts (zero_parts_of_beq hbeq).choose_spec
  · rw [← Bool.not_eq_true]
    intro hbeq
    exact hcounts (zero_of_double (zero_parts_of_beq hbeq).choose_spec).choose_spec

/-! ## Square roots -/

theorem finite_of_newton {x p r : Float} {steps : ℕ} (h : newton x steps p = some r) :
    x.isFinite = true ∧ r.isFinite = true := by
  induction steps generalizing p with
  | zero => cases h
  | succ steps ih =>
    rw [newton] at h
    split_ifs at h with hnear
    · cases h
      obtain ⟨hr, hp⟩ := finite_of_sub (finite_of_abs_lt hnear)
      exact ⟨finite_of_div (finite_of_add (finite_of_div hr)).2, hr⟩
    · exact ih h

theorem finite_of_square_root {x r : Float} (h : squareRoot x = .ok r) :
    x.isFinite = true ∧ r.isFinite = true := by
  rw [squareRoot] at h
  split_ifs at h with hnegligible
  · cases h
    exact ⟨finite_of_negligible hnegligible, by decide⟩
  · split at h
    · rename_i hnewton
      cases h
      exact finite_of_newton hnewton
    · cases h

/-- The square root of what is not negative fails only for want of convergence. -/
theorem no_convergence_of_square_root {x : Float} {e : Failure} (hx : ¬x < 0.0)
    (h : squareRoot x = .error e) : e = .noConvergence x rootSteps := by
  rw [squareRoot, if_neg hx] at h
  split_ifs at h
  split at h <;> cases h
  rfl

end Trinomial.Number
