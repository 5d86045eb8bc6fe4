import Trinomial.Proofs.Number.Decimals
import Trinomial.Proofs.Number.Values

/-! # Arithmetic by nearest numbers

The result of an operation is a number nearest to the exact result. What follows needs no more than
that: a result that is a number is met exactly, bounds that are numbers are kept, and the relative error
is at most `2 ^ -53`.
-/
set_option autoImplicit false

namespace Trinomial.Number
open Float.Model Float.Model.UnpackedFloat

/-- What is smaller is not rounded to an infinity. -/
def rangeTop : ℚ := 2 ^ 1023

theorem range_top_eq : rangeTop = 2 ^ (1023 : ℤ) := by
  rw [rangeTop, ← zpow_natCast, Nat.cast_ofNat]

theorem range_top_split : rangeTop = 2 ^ 52 * 2 ^ (971 : ℤ) := by
  have hsplit : (1023 : ℤ) = (52 : ℕ) + 971 := by norm_num
  rw [range_top_eq, hsplit, zpow_add₀ two_ne_zero, zpow_natCast]

theorem lt_range_top {q : ℚ} {k : ℤ} (h : q < 2 ^ k) (hk : k ≤ 1023) : q < rangeTop := by
  rw [range_top_eq]
  exact h.trans_le (zpow_le_zpow_right₀ (by norm_num) hk)

/-- All that is computed from integers of at most 53 binary digits stays in range. -/
theorem lt_range_top_of_le {q : ℚ} (h : q ≤ 2 ^ 53) : q < rangeTop := by
  refine lt_range_top (h.trans_lt (?_ : (2 ^ 53 : ℚ) < 2 ^ (54 : ℤ))) (by norm_num)
  norm_num

/-- What is not smaller is not subnormal, and neither is its half. -/
def rangeBottom : ℚ := 2 ^ (-1021 : ℤ)

theorem range_bottom_pos : 0 < rangeBottom := by
  rw [rangeBottom]
  positivity

theorem range_bottom_le {q : ℚ} {k : ℤ} (h : 2 ^ k ≤ q) (hk : -1021 ≤ k) : rangeBottom ≤ q :=
  (zpow_le_zpow_right₀ (by norm_num) hk).trans h

theorem range_bottom_le_of_one {q : ℚ} (h : 1 ≤ q) : rangeBottom ≤ q :=
  range_bottom_le (k := 0) h (by norm_num)

/-- The number is finite, and no finite number is nearer to `q`. -/
structure IsNearest (x : Float) (q : ℚ) : Prop where
  finite : x.isFinite = true
  le : ∀ y : Float, y.isFinite = true → |q - value x| ≤ |q - value y|

section Nearest
variable {x y : Float} {q v : ℚ}

theorem Denotes.nearest (h : Denotes x q) : IsNearest x q := by
  refine ⟨h.finite, fun y _ => ?_⟩
  rw [h.value_eq, sub_self, abs_zero]
  exact abs_nonneg _

theorem IsNearest.neg (h : IsNearest x q) : IsNearest (-x) (-q) := by
  refine ⟨finite_neg h.finite, fun y hy => ?_⟩
  have hle := h.le (-y) (finite_neg hy)
  rw [value_neg, ← abs_neg (-q - -value x), ← abs_neg (-q - value y)]
  rw [value_neg] at hle
  convert hle using 2 <;> ring

/-- A result that is the value of a number is met exactly. -/
theorem IsNearest.exact (h : IsNearest x q) (hy : Denotes y q) : Denotes x q := by
  have hle := h.le y hy.finite
  rw [hy.value_eq, sub_self, abs_zero] at hle
  have hzero := abs_nonpos_iff.mp hle
  exact ⟨h.finite, by linarith⟩

theorem IsNearest.ge (h : IsNearest x q) (hy : Denotes y v) (hv : v ≤ q) : v ≤ value x := by
  by_contra hlt
  rw [not_le] at hlt
  have hle := h.le y hy.finite
  rw [hy.value_eq, abs_of_pos (by linarith), abs_of_nonneg (by linarith)] at hle
  linarith

theorem IsNearest.le_of_le (h : IsNearest x q) (hy : Denotes y v) (hv : q ≤ v) : value x ≤ v := by
  by_contra hlt
  rw [not_le] at hlt
  have hle := h.le y hy.finite
  rw [hy.value_eq, abs_of_neg (by linarith), abs_of_nonpos (by linarith)] at hle
  linarith

/-- Near a number the error is at most the distance from it. -/
theorem IsNearest.dist_le (h : IsNearest x q) (hy : Denotes y v) : |q - value x| ≤ |q - v| := by
  have hle := h.le y hy.finite
  rwa [hy.value_eq] at hle

/-- What is rounded below a number does not lie above the middle. -/
theorem IsNearest.le_middle (h : IsNearest x q) (hy : Denotes y v) (hlt : value x < v) :
    q ≤ (value x + v) / 2 := by
  by_contra hgt
  have hle := h.dist_le hy
  rw [abs_of_nonneg (by linarith)] at hle
  rcases abs_cases (q - v) with ⟨habs, -⟩ | ⟨habs, -⟩ <;> linarith

/-- What is rounded above a number does not lie below the middle. -/
theorem IsNearest.middle_le (h : IsNearest x q) (hy : Denotes y v) (hlt : v < value x) :
    (value x + v) / 2 ≤ q := by
  have hle := h.neg.le_middle hy.neg (by rw [value_neg]; linarith)
  rw [value_neg] at hle
  linarith

end Nearest

/-! ## Rounding is nearest -/

section Rounding
variable {q : ℚ}

theorem nearest_dist {x : ℚ} (hx : 0 ≤ x) (n : ℤ) : |x - nearest x| ≤ |x - n| := by
  have hlo := Nat.floor_le hx
  have hhi := Nat.lt_floor_add_one x
  have hnear : |x - nearest x| ≤ x - ⌊x⌋₊ ∧ |x - nearest x| ≤ ⌊x⌋₊ + 1 - x := by
    unfold nearest
    split_ifs with h h'
    · rw [abs_of_nonneg (by linarith)]
      constructor <;> linarith
    · push_cast
      rw [abs_of_neg (by linarith)]
      constructor <;> linarith
    · have hhalf : x = ⌊x⌋₊ + 1 / 2 := by linarith
      rcases Nat.mod_two_eq_zero_or_one ⌊x⌋₊ with hm | hm <;> rw [hm] <;> push_cast
      · rw [abs_of_nonneg (by linarith)]
        constructor <;> linarith
      · rw [abs_of_nonpos (by linarith)]
        constructor <;> linarith
  rcases le_or_gt n ⌊x⌋₊ with hn | hn
  · have hn' : (n : ℚ) ≤ ⌊x⌋₊ := by exact_mod_cast hn
    rw [abs_of_nonneg (by linarith : 0 ≤ x - n)]
    linarith [hnear.1]
  · have hn' : (⌊x⌋₊ : ℚ) + 1 ≤ n := by exact_mod_cast hn
    rw [abs_of_nonpos (by linarith : x - n ≤ 0)]
    linarith [hnear.2]

/-- What rounding comes to, also where the significand outgrows its digits. -/
def rounded (q : ℚ) : ℚ := nearest (q / 2 ^ grid q) * 2 ^ grid q

theorem nearest_grid_le (q : ℚ) : nearest (q / 2 ^ grid q) ≤ 2 ^ 53 := by
  have hfloor : ⌊q / 2 ^ grid q⌋₊ < 2 ^ 53 := by
    rw [Nat.floor_lt' (by decide)]
    exact_mod_cast lt_two_zpow_grid q
  unfold nearest
  split_ifs <;> omega

/-- Numbers that are not subnormal have a full significand. -/
theorem le_nearest_grid (hq : 0 < q) (h : grid q ≠ -1074) :
    (2 ^ 52 : ℚ) * 2 ^ grid q ≤ q ∧ 2 ^ 52 ≤ nearest (q / 2 ^ grid q) := by
  have hlog : grid q = Int.log 2 q - 52 := by
    rw [grid] at h ⊢
    omega
  have hle : (2 ^ 52 : ℚ) * 2 ^ grid q ≤ q := by
    calc (2 ^ 52 : ℚ) * 2 ^ grid q = ((2 : ℕ) : ℚ) ^ Int.log 2 q := by
          rw [hlog, zpow_sub₀ (by norm_num)]
          push_cast
          field_simp
          norm_num
      _ ≤ q := Int.zpow_log_le_self (by decide) hq
  refine ⟨hle, ?_⟩
  have hfloor : 2 ^ 52 ≤ ⌊q / 2 ^ grid q⌋₊ := by
    rw [Nat.le_floor_iff (by positivity), le_div_iff₀ (by positivity)]
    exact_mod_cast hle
  unfold nearest
  split_ifs <;> omega

theorem round_to_neg (q : ℚ) : roundTo .negative q = (roundTo .positive q).neg := by
  rw [roundTo, roundTo]
  split_ifs <;> rfl

theorem denotes_zero (s : Sign) : Denotes (ofParts (.zero s)) 0 := by
  cases s <;> exact ⟨by rfl, by rfl⟩

theorem denotes_of_fits {s : Sign} {m : ℕ} {e : ℤ} {hm : 0 < m} (h : Fits (.finite s m e hm)) :
    Denotes (ofParts (.finite s m e hm)) (signum s * (m * 2 ^ e)) :=
  ⟨finite_within hm h.2.2.1, by rw [value, parts_of_parts h]; rfl⟩

theorem denotes_rounded (hq : 0 < q) (hlt : q < rangeTop) :
    Denotes (ofParts (roundTo .positive q)) (rounded q) := by
  by_cases h : nearest (q / 2 ^ grid q) = 0
  · rw [roundTo, dif_pos h, rounded, h, Nat.cast_zero, zero_mul]
    exact denotes_zero _
  have hmin := min_le_grid q
  have hmax : grid q ≤ 970 := by
    have hlog : Int.log 2 q < 1023 := log_lt_of_lt hq (range_top_eq ▸ hlt)
    rw [grid]
    omega
  have hle := nearest_grid_le q
  have hnormal : 2 ^ 52 ≤ nearest (q / 2 ^ grid q) ∨ grid q = -1074 := by
    by_cases hsub : grid q = -1074
    · exact .inr hsub
    · exact .inl (le_nearest_grid hq hsub).2
  by_cases h53 : nearest (q / 2 ^ grid q) < 2 ^ 53
  · rw [roundTo, dif_neg h, if_pos h53]
    have hfits : Fits (.finite .positive _ _ (Nat.pos_of_ne_zero h)) := ⟨h53, hmin, by omega, hnormal⟩
    have hdenotes := denotes_of_fits hfits
    rwa [signum, one_mul] at hdenotes
  · have hcarry : nearest (q / 2 ^ grid q) = 2 ^ 53 := by omega
    have hvalue : rounded q = signum .positive * ((2 ^ 52 : ℕ) * 2 ^ (grid q + 1)) := by
      rw [rounded, hcarry, zpow_add_one₀ (by norm_num), signum]
      push_cast
      ring
    rw [roundTo, dif_neg h, if_neg h53, hvalue]
    exact denotes_of_fits ⟨by decide, by omega, by omega, .inl (by decide)⟩

/-- No point of the grid is nearer. -/
theorem rounded_dist (hq : 0 < q) (n : ℤ) : |q - rounded q| ≤ |q - n * 2 ^ grid q| := by
  have hunit : (0 : ℚ) < 2 ^ grid q := by positivity
  have hscale (k : ℚ) : |q - k * 2 ^ grid q| = |q / 2 ^ grid q - k| * 2 ^ grid q := by
    rw [← abs_of_pos hunit, ← abs_mul, abs_of_pos hunit]
    congr 1
    field_simp
  rw [rounded, hscale, hscale]
  exact mul_le_mul_of_nonneg_right (nearest_dist (by positivity) n) hunit.le

theorem nearest_of_round (hq : 0 < q) (hlt : q < rangeTop) :
    IsNearest (ofParts (roundTo .positive q)) q := by
  obtain ⟨hfinite, hvalue⟩ := denotes_rounded hq hlt
  refine ⟨hfinite, fun y hy => ?_⟩
  rw [hvalue]
  rcases Denotes.cases ⟨hy, rfl⟩ with ⟨s, -, h0⟩ | ⟨s, m, e, hm, -, hfits, hfinite⟩
  · have hdist := rounded_dist hq 0
    rwa [Int.cast_zero, zero_mul, ← h0] at hdist
  rcases le_or_gt (grid q) e with he | he
  · -- the number lies on the grid
    obtain ⟨k, rfl⟩ := Int.le.dest he
    have hdist := rounded_dist hq (s.apply m * 2 ^ k)
    have hgrid : ((s.apply m * 2 ^ k : ℤ) : ℚ) * 2 ^ grid q = value y := by
      rw [hfinite, zpow_add₀ (by norm_num), zpow_natCast]
      push_cast [cast_apply]
      ring
    rwa [hgrid] at hdist
  · -- the number lies below the finest number of the grid
    have hfull := (le_nearest_grid hq (by have := hfits.2.1; omega)).1
    have hbelow : value y ≤ 2 ^ 52 * 2 ^ grid q := by
      have hm' : (m : ℚ) ≤ 2 ^ 53 := by exact_mod_cast hfits.1.le
      calc value y ≤ |value y| := le_abs_self _
        _ = m * 2 ^ e := by
          rw [hfinite, abs_mul, abs_signum, one_mul, abs_of_pos (size_pos hm e)]
        _ ≤ 2 ^ 53 * 2 ^ e := by gcongr
        _ = 2 ^ 52 * 2 ^ (e + 1) := by
          rw [zpow_add₀ (by norm_num)]
          ring
        _ ≤ 2 ^ 52 * 2 ^ grid q := by
          gcongr
          · norm_num
          · omega
    have hdist := rounded_dist hq (2 ^ 52)
    rw [Int.cast_pow, Int.cast_ofNat] at hdist
    rw [abs_of_nonneg (by linarith : 0 ≤ q - 2 ^ 52 * 2 ^ grid q)] at hdist
    rw [abs_of_nonneg (by linarith : 0 ≤ q - value y)]
    linarith

theorem nearest_of_signed (s : Sign) (hq : 0 < q) (hlt : q < rangeTop) :
    IsNearest (ofParts (roundTo s q)) (signum s * q) := by
  have h := nearest_of_round hq hlt
  cases s with
  | positive => rwa [signum, one_mul]
  | negative =>
    rw [signum, neg_one_mul, round_to_neg, of_parts_neg]
    exact h.neg

end Rounding

/-! ## Operations -/

/-- A significand of any length is rounded as the rational that it stands for. -/
theorem round_eq {m : ℕ} (hm : 0 < m) (e : ℤ) (s : Sign) :
    UnpackedFloat.round Format.binary64 s m e = roundTo s (m * 2 ^ e) := by
  have hunit (k : ℤ) : (0 : ℚ) < 2 ^ k := by positivity
  have hquot : (m : ℚ) * 2 ^ e / 2 ^ e = m := mul_div_cancel_right₀ _ (hunit e).ne'
  have hgrid : grid (m * 2 ^ e) = max (m.log2 + e - 52) (-1074) := by
    rw [grid, log_eq hm.ne' hquot.ge (by rw [hquot]; linarith)]
  rw [UnpackedFloat.round, target_exponent_eq_max, ← hgrid, decreaseExponent]
  dsimp only
  generalize hk : (e - grid (m * 2 ^ e)).toNat = k
  have hshift : ((m <<< k : ℕ) : ℚ) = m * 2 ^ e / 2 ^ (e - k) := by
    rw [Nat.shiftLeft_eq, eq_div_iff (hunit _).ne', zpow_sub₀ (by norm_num), zpow_natCast]
    push_cast
    field_simp
  apply round_with_accuracy_eq s (size_pos hm e)
  · rw [← hshift]
    exact stands_exact _
  · omega

/-- A significand that is shifted to a smaller exponent keeps its size. -/
theorem shifted_size {m : ℕ} {e t : ℤ} (h : t ≤ e) :
    ((m <<< (e - t).toNat : ℕ) : ℚ) * 2 ^ t = m * 2 ^ e := by
  obtain ⟨d, rfl⟩ := Int.le.dest h
  rw [Nat.shiftLeft_eq, add_sub_cancel_left, Int.toNat_natCast, zpow_add₀ (by norm_num),
    zpow_natCast]
  push_cast
  ring

theorem nearest_of_normalize (k e : ℤ) (h : |(k * 2 ^ e : ℚ)| < rangeTop) :
    IsNearest (ofParts (.normalize Format.binary64 k e .positive)) (k * 2 ^ e) := by
  obtain ⟨m, rfl | rfl⟩ := Int.eq_nat_or_neg k
  all_goals
    rcases Nat.eq_zero_or_pos m with rfl | hm
    · rw [UnpackedFloat.normalize]
      simpa using (denotes_zero .positive).nearest
    have hpos := size_pos hm e
  · rw [UnpackedFloat.normalize, compare_gt_iff_gt.mpr (by exact_mod_cast hm)]
    dsimp only
    rw [Int.toNat_natCast, round_eq hm]
    rw [Int.cast_natCast] at h ⊢
    exact nearest_of_round hpos (lt_of_abs_lt h)
  · rw [UnpackedFloat.normalize, compare_lt_iff_lt.mpr (by omega)]
    dsimp only
    rw [neg_neg, Int.toNat_natCast, round_eq hm]
    rw [Int.cast_neg, Int.cast_natCast, neg_mul, abs_neg] at h
    have hneg := nearest_of_signed .negative hpos (lt_of_abs_lt h)
    rwa [signum, neg_one_mul, ← neg_mul] at hneg

section Operations
variable {x y : Float} {p q : ℚ}

theorem Denotes.add (hx : Denotes x p) (hy : Denotes y q) (h : |p + q| < rangeTop) :
    IsNearest (x + y) (p + q) := by
  rw [add_eq]
  rcases hx.cases with ⟨s, hpx, rfl⟩ | ⟨s, m, e, hm, hpx, -, rfl⟩
  · rcases hy.cases with ⟨t, hpy, rfl⟩ | ⟨t, n, f, hn, hpy, -, hq⟩
    · rw [hpx, hpy, add_zero]
      cases s <;> cases t <;> exact (denotes_zero _).nearest
    · rw [hpx, zero_add]
      have hsum : UnpackedFloat.add Format.binary64 (.zero s) (parts y) = parts y := by rw [hpy]; rfl
      rw [hsum, of_parts_parts]
      exact hy.nearest
  · rcases hy.cases with ⟨t, hpy, rfl⟩ | ⟨t, n, f, hn, hpy, -, rfl⟩
    · rw [hpy, add_zero]
      have hsum : UnpackedFloat.add Format.binary64 (parts x) (.zero t) = parts x := by rw [hpx]; rfl
      rw [hsum, of_parts_parts]
      exact hx.nearest
    · have hexact : signum s * (m * 2 ^ e) + signum t * (n * 2 ^ f) =
          (s.apply (m <<< (e - min e f).toNat : ℕ) + t.apply (n <<< (f - min e f).toNat : ℕ) : ℤ) *
            2 ^ min e f := by
        rw [Int.cast_add, cast_apply, cast_apply, Int.cast_natCast, Int.cast_natCast, add_mul,
          mul_assoc, mul_assoc, shifted_size (min_le_left e f), shifted_size (min_le_right e f)]
      rw [hexact] at h ⊢
      rw [hpx, hpy]
      exact nearest_of_normalize _ _ h

theorem Denotes.sub (hx : Denotes x p) (hy : Denotes y q) (h : |p - q| < rangeTop) :
    IsNearest (x - y) (p - q) := by
  rw [float_sub_eq, sub_eq_add_neg]
  rw [sub_eq_add_neg] at h
  exact hx.add hy.neg h

theorem Denotes.mul (hx : Denotes x p) (hy : Denotes y q) (h : |p * q| < rangeTop) :
    IsNearest (x * y) (p * q) := by
  rw [mul_eq]
  rcases hx.cases with ⟨s, hpx, rfl⟩ | ⟨s, m, e, hm, hpx, hfits, rfl⟩
  · rw [hpx, zero_mul]
    rcases hy.cases with ⟨t, hpy, rfl⟩ | ⟨t, n, f, hn, hpy, -, rfl⟩ <;> rw [hpy] <;>
      exact (denotes_zero _).nearest
  rcases hy.cases with ⟨t, hpy, rfl⟩ | ⟨t, n, f, hn, hpy, hfits', rfl⟩
  · rw [hpx, hpy, mul_zero]
    exact (denotes_zero _).nearest
  have hwide : 2 ^ 52 ≤ m * n ∨ e + f ≤ -1074 := by
    rcases hfits.2.2.2 with hm52 | he
    · exact .inl (hm52.trans (Nat.le_mul_of_pos_right _ hn))
    rcases hfits'.2.2.2 with hn52 | hf
    · exact .inl (hn52.trans (Nat.le_mul_of_pos_left _ hm))
    · exact .inr (by omega)
  have hpos : (0 : ℚ) < m * 2 ^ e * (n * 2 ^ f) := mul_pos (size_pos hm e) (size_pos hn f)
  have hexact : signum s * (m * 2 ^ e) * (signum t * (n * 2 ^ f)) =
      signum (s * t) * (m * 2 ^ e * (n * 2 ^ f)) := by
    rw [signum_mul]
    ring
  rw [hexact] at h ⊢
  rw [abs_mul, abs_signum, one_mul] at h
  rw [hpx, hpy, mul_finite hm hn hwide]
  exact nearest_of_signed _ hpos (lt_of_abs_lt h)

theorem Denotes.div (hx : Denotes x p) (hy : Denotes y q) (hq : q ≠ 0) (h : |p / q| < rangeTop) :
    IsNearest (x / y) (p / q) := by
  rw [div_eq]
  rcases hy.cases with ⟨t, -, h0⟩ | ⟨t, n, f, hn, hpy, -, rfl⟩
  · exact absurd h0 hq
  rcases hx.cases with ⟨s, hpx, rfl⟩ | ⟨s, m, e, hm, hpx, -, rfl⟩
  · rw [hpx, hpy, zero_div]
    exact (denotes_zero _).nearest
  have hpos : (0 : ℚ) < m * 2 ^ e / (n * 2 ^ f) := div_pos (size_pos hm e) (size_pos hn f)
  have hexact : signum s * (m * 2 ^ e) / (signum t * (n * 2 ^ f)) =
      signum (s / t) * (m * 2 ^ e / (n * 2 ^ f)) := by
    rw [signum_div, mul_div_mul_comm]
  rw [hexact] at h ⊢
  rw [abs_mul, abs_signum, one_mul] at h
  rw [hpx, hpy, div_finite hm hn]
  exact nearest_of_signed _ hpos (lt_of_abs_lt h)

end Operations

/-! ## Exact results and errors -/

theorem denotes_zero_point : Denotes 0.0 0 := denotes_zero .positive

theorem zero_lt_iff_value {x : Float} (hx : x.isFinite = true) : 0.0 < x ↔ 0 < value x :=
  denotes_zero_point.lt_iff ⟨hx, rfl⟩

theorem denotes_one : Denotes 1.0 1 :=
  ⟨by rfl, by rw [value, parts_one, value_of_positive, one_value]⟩

theorem denotes_two : Denotes 2.0 2 :=
  ⟨by rfl, by rw [value, parts_two, value_of_positive]; norm_num⟩

section Grid
variable {x : Float} {q : ℚ}

/-- What lies on a grid not finer than its own is not changed by rounding. -/
theorem rounded_dyadic {m : ℕ} {e : ℤ} (hm : 0 < m) (hgrid : grid (m * 2 ^ e) ≤ e) :
    rounded (m * 2 ^ e) = m * 2 ^ e := by
  obtain ⟨d, hd⟩ := Int.le.dest hgrid
  have hexact : ((m * 2 ^ d : ℤ) : ℚ) * 2 ^ grid (m * 2 ^ e) = m * 2 ^ e := by
    conv_rhs => rw [← hd, zpow_add₀ (by norm_num), zpow_natCast]
    push_cast
    ring
  have hdist := rounded_dist (size_pos hm e) (m * 2 ^ d)
  rw [hexact, sub_self, abs_zero] at hdist
  linarith [abs_nonpos_iff.mp hdist]

theorem exists_normal {m : ℕ} {e : ℤ} (hlo : 2 ^ 52 ≤ m) (hlt : m < 2 ^ 53) (he : -1074 ≤ e)
    (he' : e ≤ 971) : ∃ y, Denotes y (m * 2 ^ e) := by
  have hm : 0 < m := by omega
  have hfits : Fits (.finite .positive m e hm) := ⟨hlt, he, he', .inl hlo⟩
  have hdenotes := denotes_of_fits hfits
  rw [signum, one_mul] at hdenotes
  exact ⟨_, hdenotes⟩

theorem exists_size {m : ℕ} {e : ℤ} (hm : 0 < m) (hle : m ≤ 2 ^ 53) (he : -1074 ≤ e)
    (he' : e ≤ 970) : ∃ y, Denotes y (m * 2 ^ e) := by
  rcases hle.lt_or_eq with hlt | rfl
  · have hq := size_pos hm e
    have hq' : (m * 2 ^ e : ℚ) < 2 ^ (53 + e) := by
      have hm' : (m : ℚ) < 2 ^ (53 : ℤ) := by exact_mod_cast hlt
      rw [zpow_add₀ (by norm_num)]
      gcongr
    have hgrid : grid (m * 2 ^ e) ≤ e := by
      have hlog := log_lt_of_lt hq hq'
      rw [grid]
      omega
    have hdenotes := denotes_rounded hq (lt_range_top hq' (by omega))
    rw [rounded_dyadic hm hgrid] at hdenotes
    exact ⟨_, hdenotes⟩
  · -- one digit more than a significand has, but only zeros after the first
    obtain ⟨y, hy⟩ := exists_normal (le_refl (2 ^ 52)) (by norm_num) (by omega : -1074 ≤ e + 1)
      (by omega)
    have hcarry : (((2 ^ 53 : ℕ) : ℚ) * 2 ^ e) = (2 ^ 52 : ℕ) * 2 ^ (e + 1) := by
      rw [zpow_add_one₀ (by norm_num)]
      push_cast
      ring
    exact ⟨y, hcarry ▸ hy⟩

/-- A multiple of a power of two with at most 53 binary digits is the value of a number. -/
theorem exists_dyadic {k e : ℤ} (hk : |k| ≤ 2 ^ 53) (he : -1074 ≤ e) (he' : e ≤ 970) :
    ∃ y, Denotes y (k * 2 ^ e) := by
  have hbounds := abs_le.mp hk
  obtain ⟨m, rfl | rfl⟩ := Int.eq_nat_or_neg k
  all_goals
    rcases Nat.eq_zero_or_pos m with rfl | hm
    · exact ⟨_, by simpa using denotes_zero .positive⟩
    obtain ⟨y, hy⟩ := exists_size hm (by omega) he he'
  · exact ⟨y, by exact_mod_cast hy⟩
  · refine ⟨-y, ?_⟩
    rw [Int.cast_neg, Int.cast_natCast, neg_mul]
    exact hy.neg

/-- The significand of a positive number that is not subnormal is full. -/
theorem Denotes.normal (h : Denotes x q) (hlo : rangeBottom ≤ q) : ∃ (m : ℕ) (e : ℤ),
    2 ^ 52 ≤ m ∧ m < 2 ^ 53 ∧ -1074 < e ∧ e ≤ 971 ∧ q = m * 2 ^ e := by
  have hpos := lt_of_lt_of_le range_bottom_pos hlo
  rcases h.cases with ⟨-, -, rfl⟩ | ⟨s, m, e, hm, -, ⟨hlt, hmin, hmax, hnormal⟩, rfl⟩
  · exact absurd hpos (lt_irrefl _)
  cases s with
  | negative =>
    rw [signum, neg_one_mul] at hpos
    exact absurd (size_pos hm e) (neg_pos.mp hpos).le.not_gt
  | positive =>
    rw [signum, one_mul] at hlo ⊢
    have hexp : (2 : ℚ) ^ (-1021 : ℤ) < 2 ^ (53 + e) := by
      have hm' : (m : ℚ) < 2 ^ (53 : ℤ) := by exact_mod_cast hlt
      calc (2 : ℚ) ^ (-1021 : ℤ) ≤ m * 2 ^ e := hlo
        _ < 2 ^ (53 : ℤ) * 2 ^ e := by gcongr
        _ = 2 ^ (53 + e) := by rw [zpow_add₀ (by norm_num)]
    have hlt' := (zpow_lt_zpow_iff_right₀ (by norm_num : (1 : ℚ) < 2)).mp hexp
    exact ⟨m, e, hnormal.resolve_right (by omega), hlt, by omega, hmax, rfl⟩

theorem exists_range_top : ∃ y, Denotes y rangeTop := by
  obtain ⟨y, hy⟩ := exists_normal (le_refl (2 ^ 52)) (by norm_num) (by norm_num : (-1074 : ℤ) ≤ 971)
    (by norm_num)
  rw [Nat.cast_pow, Nat.cast_ofNat, ← range_top_split] at hy
  exact ⟨y, hy⟩

/-- Finite numbers stay clearly below twice the top of the range. -/
theorem Denotes.half_lt_range (h : Denotes x q) (hlo : rangeBottom ≤ q) : q / 2 + 2 < rangeTop := by
  obtain ⟨m, e, -, hlt, -, hmax, rfl⟩ := h.normal hlo
  have hm : (m : ℚ) ≤ 2 ^ 53 - 1 := by
    rw [le_sub_iff_add_le]
    exact_mod_cast hlt
  have hle : (2 : ℚ) ^ e ≤ 2 ^ (971 : ℤ) := zpow_le_zpow_right₀ (by norm_num) hmax
  have hbig : (2 : ℚ) ^ (3 : ℤ) ≤ 2 ^ (971 : ℤ) := zpow_le_zpow_right₀ (by norm_num) (by norm_num)
  have hq : (m : ℚ) * 2 ^ e ≤ (2 ^ 53 - 1) * 2 ^ (971 : ℤ) :=
    mul_le_mul hm hle (by positivity) (by norm_num)
  rw [range_top_split]
  generalize (2 : ℚ) ^ (971 : ℤ) = t at hq hbig ⊢
  norm_num at hbig
  linarith

/-- Halving is exact. -/
theorem Denotes.half (h : Denotes x q) (hlo : rangeBottom ≤ q) : Denotes (x / 2.0) (q / 2) := by
  obtain ⟨m, e, h52, hlt, hmin, hmax, rfl⟩ := h.normal hlo
  have hhalf : (m : ℚ) * 2 ^ e / 2 = m * 2 ^ (e - 1) := by
    rw [zpow_sub_one₀ (by norm_num), div_eq_mul_inv, mul_assoc]
  obtain ⟨y, hy⟩ := exists_normal h52 hlt (by omega : -1074 ≤ e - 1) (by omega)
  have hrange : (m : ℚ) * 2 ^ (e - 1) < rangeTop := by
    have hm' : (m : ℚ) < 2 ^ (53 : ℤ) := by exact_mod_cast hlt
    refine lt_range_top (k := 53 + (e - 1)) ?_ (by omega)
    rw [zpow_add₀ (by norm_num)]
    gcongr
  have hnearest := h.div denotes_two two_ne_zero (by
    rw [hhalf, abs_of_pos (size_pos (by omega) _)]
    exact hrange)
  rw [hhalf] at hnearest ⊢
  exact hnearest.exact hy

/-- Twice a number is a number, if it is not too large. -/
theorem Denotes.exists_double (h : Denotes x q) (hlo : rangeBottom ≤ q) (hhi : 2 * q ≤ rangeTop) :
    ∃ y, Denotes y (2 * q) := by
  obtain ⟨m, e, h52, hlt, hmin, -, rfl⟩ := h.normal hlo
  rw [range_top_eq] at hhi
  have hexp : (2 : ℚ) ^ (1 + (52 + e)) ≤ 2 ^ (1023 : ℤ) := by
    have hm' : (2 : ℚ) ^ (52 : ℤ) ≤ m := by exact_mod_cast h52
    calc (2 : ℚ) ^ (1 + (52 + e)) = 2 * (2 ^ (52 : ℤ) * 2 ^ e) := by
          rw [zpow_one_add₀ (by norm_num), zpow_add₀ (by norm_num)]
      _ ≤ 2 * (m * 2 ^ e) := by gcongr
      _ ≤ 2 ^ (1023 : ℤ) := hhi
  have hle := (zpow_le_zpow_iff_right₀ (by norm_num : (1 : ℚ) < 2)).mp hexp
  obtain ⟨y, hy⟩ := exists_normal h52 hlt (by omega : -1074 ≤ e + 1) (by omega)
  have hdouble : (m : ℚ) * 2 ^ (e + 1) = 2 * (m * 2 ^ e) := by
    rw [zpow_add_one₀ (by norm_num)]
    ring
  exact ⟨y, hdouble ▸ hy⟩

/-- Numbers from a power of two on are multiples of the unit in its last place. -/
theorem Denotes.dyadic (h : Denotes x q) {k : ℤ} (hk : 2 ^ k ≤ q) : ∃ j : ℤ, q = j * 2 ^ (k - 52) := by
  have hpos : (0 : ℚ) < q := lt_of_lt_of_le (by positivity) hk
  rcases h.cases with ⟨-, -, rfl⟩ | ⟨s, m, e, hm, -, ⟨hlt, -⟩, rfl⟩
  · exact absurd hpos (lt_irrefl _)
  have hle : (2 : ℚ) ^ k < 2 ^ (53 + e) := by
    have hm' : (m : ℚ) < 2 ^ (53 : ℤ) := by exact_mod_cast hlt
    calc (2 : ℚ) ^ k ≤ |signum s * (m * 2 ^ e)| := hk.trans (le_abs_self _)
      _ = m * 2 ^ e := by rw [abs_mul, abs_signum, one_mul, abs_of_pos (size_pos hm e)]
      _ < 2 ^ (53 : ℤ) * 2 ^ e := by gcongr
      _ = 2 ^ (53 + e) := by rw [zpow_add₀ (by norm_num)]
  have hlt' := (zpow_lt_zpow_iff_right₀ (by norm_num : (1 : ℚ) < 2)).mp hle
  obtain ⟨d, rfl⟩ := Int.le.dest (by omega : k - 52 ≤ e)
  refine ⟨s.apply m * 2 ^ d, ?_⟩
  rw [zpow_add₀ (by norm_num), zpow_natCast]
  push_cast [cast_apply]
  ring

/-- The relative error of a result that is neither subnormal nor too large. -/
theorem IsNearest.error_le (h : IsNearest x q) (hlo : rangeBottom ≤ q) (hhi : q < rangeTop) :
    |q - value x| ≤ q / 2 ^ 53 := by
  have hq : 0 < q := lt_of_lt_of_le range_bottom_pos hlo
  have hunit : (0 : ℚ) < 2 ^ grid q := by positivity
  have hnormal : grid q ≠ -1074 := by
    have hlog : -1021 ≤ Int.log 2 q := by
      rw [← Int.zpow_le_iff_le_log (by decide) hq]
      exact hlo
    rw [grid]
    omega
  obtain ⟨n, hn⟩ : ∃ n : ℤ, |q / 2 ^ grid q - n| ≤ 1 / 2 := ⟨_, abs_sub_round _⟩
  have hscale : q - n * 2 ^ grid q = (q / 2 ^ grid q - n) * 2 ^ grid q := by
    rw [sub_mul, div_mul_cancel₀ _ hunit.ne']
  calc |q - value x| ≤ |q - rounded q| := h.dist_le (denotes_rounded hq hhi)
    _ ≤ |q - n * 2 ^ grid q| := rounded_dist hq n
    _ = |q / 2 ^ grid q - n| * 2 ^ grid q := by rw [hscale, abs_mul, abs_of_pos hunit]
    _ ≤ 1 / 2 * 2 ^ grid q := mul_le_mul_of_nonneg_right hn hunit.le
    _ ≤ q / 2 ^ 53 := by
      have hfull := (le_nearest_grid hq hnormal).1
      rw [le_div_iff₀ (by norm_num)]
      linarith

end Grid

/-! ## Integers -/

section Integers
variable {x y : Float} {m n : ℤ}

theorem exists_integer (h : |n| < 2 ^ 53) : ∃ y, Denotes y n := by
  obtain ⟨y, hy⟩ := exists_dyadic h.le (by norm_num) (by norm_num : (0 : ℤ) ≤ 970)
  rw [zpow_zero, mul_one] at hy
  exact ⟨y, hy⟩

theorem denotes_of_nat {n : ℕ} (h : n < 2 ^ 53) : Denotes (Float.ofNat n) n := by
  rcases Nat.eq_zero_or_pos n with rfl | hn
  · exact ⟨by rfl, by rw [Nat.cast_zero]; rfl⟩
  have hbound : (n : ℚ) < rangeTop := lt_range_top_of_le (by exact_mod_cast h.le)
  have hnearest : IsNearest (Float.ofNat n) n := by
    change IsNearest (Float.ofScientific n false 0) n
    rw [of_scientific_short hn ⟨h, by norm_num⟩, if_neg (by decide), pow_zero, mul_one]
    exact nearest_of_round (by exact_mod_cast hn) hbound
  obtain ⟨y, hy⟩ := exists_integer (n := n) (by rw [Nat.abs_cast]; exact_mod_cast h)
  exact hnearest.exact hy

theorem denotes_of_int (h : |n| < 2 ^ 53) : Denotes (Float.ofInt n) n := by
  cases n with
  | ofNat n => exact denotes_of_nat (by rw [Int.ofNat_eq_natCast, Nat.abs_cast] at h; exact_mod_cast h)
  | negSucc n =>
    have hn : n + 1 < 2 ^ 53 := by
      have hbounds := abs_lt.mp h
      omega
    have hneg := (denotes_of_nat hn).neg
    rw [Int.negSucc_eq]
    exact_mod_cast hneg

/-- A nearest number to an integer is the integer. -/
theorem IsNearest.integer (h : IsNearest x n) (hn : |n| < 2 ^ 53) : Denotes x n :=
  h.exact (denotes_of_int hn)

theorem integer_lt (h : |n| < 2 ^ 53) : |(n : ℚ)| < rangeTop :=
  lt_range_top_of_le (by exact_mod_cast h.le)

theorem Denotes.add_integer (hx : Denotes x m) (hy : Denotes y n) (h : |m + n| < 2 ^ 53) :
    Denotes (x + y) ((m + n : ℤ) : ℚ) := by
  refine IsNearest.integer ?_ h
  rw [Int.cast_add]
  exact hx.add hy (by exact_mod_cast integer_lt h)

theorem Denotes.sub_integer (hx : Denotes x m) (hy : Denotes y n) (h : |m - n| < 2 ^ 53) :
    Denotes (x - y) ((m - n : ℤ) : ℚ) := by
  refine IsNearest.integer ?_ h
  rw [Int.cast_sub]
  exact hx.sub hy (by exact_mod_cast integer_lt h)

theorem Denotes.mul_integer (hx : Denotes x m) (hy : Denotes y n) (h : |m * n| < 2 ^ 53) :
    Denotes (x * y) ((m * n : ℤ) : ℚ) := by
  refine IsNearest.integer ?_ h
  rw [Int.cast_mul]
  exact hx.mul hy (by exact_mod_cast integer_lt h)

/-- A division that leaves no remainder is exact. -/
theorem Denotes.div_integer (hx : Denotes x ((m * n : ℤ) : ℚ)) (hy : Denotes y m) (hm : m ≠ 0)
    (h : |n| < 2 ^ 53) : Denotes (x / y) n := by
  have hm' : (m : ℚ) ≠ 0 := by exact_mod_cast hm
  have hquot : ((m * n : ℤ) : ℚ) / m = n := by
    rw [Int.cast_mul, mul_div_cancel_left₀ _ hm']
  refine IsNearest.integer ?_ h
  have hdiv := hx.div hy hm' (by rw [hquot]; exact integer_lt h)
  rwa [hquot] at hdiv

end Integers
end Trinomial.Number
