import Trinomial.Proofs.Number.Approach
import Trinomial.Proofs.Number.Integrality

/-! # Rounding down

The floor of a finite number is the floor of its value. For a rounded quotient of integers of moderate size
it is the floor of the exact one, because the rounding error is smaller than the distance to the next integer.
-/
set_option autoImplicit false

namespace Trinomial.Number
open Float.Model Float.Model.UnpackedFloat

/-! ## The integral part -/

/-- `k` is `q` rounded toward zero, and it is not large unless `q` is an integer. -/
structure TowardZero (q : ℚ) (k : ℤ) : Prop where
  below : 0 ≤ q → k ≤ q ∧ q < k + 1
  above : q < 0 → q ≤ k ∧ k - 1 < q
  small : q ≠ k → |k| < 2 ^ 52

theorem toward_zero_integer (k : ℤ) : TowardZero k k :=
  ⟨fun _ => ⟨le_rfl, lt_add_one _⟩, fun _ => ⟨le_rfl, sub_one_lt _⟩, fun h => absurd rfl h⟩

/-- The integral part of a size, with the sign of the number. -/
theorem toward_zero_of_sign {q : ℚ} {n : ℕ} (s : Sign) (hle : n ≤ q) (hlt : q < n + 1)
    (hn : n < 2 ^ 52) : TowardZero (signum s * q) (s.apply n) := by
  have hnonneg : (0 : ℚ) ≤ n := Nat.cast_nonneg n
  have hcast := cast_apply s n
  rw [Int.cast_natCast] at hcast
  refine ⟨?_, ?_, fun _ => ?_⟩
  · rw [hcast]
    cases s <;> rw [signum] <;> intro h <;> constructor <;> linarith
  · rw [hcast]
    cases s <;> rw [signum] <;> intro h <;> constructor <;> linarith
  · have hsmall : |(n : ℤ)| < 2 ^ 52 := by
      rw [Nat.abs_cast]
      exact_mod_cast hn
    cases s with
    | positive => exact hsmall
    | negative =>
      rw [← abs_neg] at hsmall
      exact hsmall

section Floor
variable {x : Float}

theorem exists_truncated (hx : x.isFinite = true) :
    ∃ k : ℤ, Denotes (truncate x) k ∧ TowardZero (value x) k := by
  by_cases hs : 0 ≤ (magnitude x).scale
  · have htruncate : truncate x = x := by rw [truncate, if_pos hs]
    have hintegral : isIntegral x = true := by
      rw [isIntegral, htruncate]
      exact beq_self hx
    obtain ⟨k, hk⟩ := (is_integral_iff hx).mp hintegral
    rw [htruncate, hk]
    exact ⟨k, ⟨hx, hk⟩, toward_zero_integer k⟩
  · have htruncate := denotes_truncate hx hs
    obtain ⟨d, hd⟩ : ∃ d : ℕ, (magnitude x).scale = -(d + 1 : ℕ) :=
      ⟨(-(magnitude x).scale).toNat - 1, by omega⟩
    have hm := significand_lt hx
    rw [hd, neg_neg, Int.toNat_natCast, Nat.shiftRight_eq_div_pow] at htruncate
    rw [value_of_magnitude hx, hd, zpow_neg, zpow_natCast, ← div_eq_mul_inv]
    generalize (magnitude x).significand = m at hm htruncate ⊢
    have hfloor : ⌊(m : ℚ) / 2 ^ (d + 1)⌋₊ = m / 2 ^ (d + 1) := by
      have h := Nat.floor_div_eq_div (K := ℚ) m (2 ^ (d + 1))
      rwa [Nat.cast_pow, Nat.cast_ofNat] at h
    have hsmall : m / 2 ^ (d + 1) < 2 ^ 52 := by
      rw [Nat.div_lt_iff_lt_mul (by positivity), pow_succ]
      have hpos : 1 ≤ 2 ^ d := Nat.one_le_two_pow
      omega
    refine ⟨(signOf x).apply (m / 2 ^ (d + 1) : ℕ), ?_, toward_zero_of_sign (signOf x) ?_ ?_ hsmall⟩
    · rw [cast_apply, Int.cast_natCast]
      exact htruncate
    · rw [← hfloor]
      exact Nat.floor_le (by positivity)
    · rw [← hfloor]
      exact Nat.lt_floor_add_one _

/-! ## The floor -/

/-- The floor of a number has the floor of its value. -/
theorem denotes_floor (hx : x.isFinite = true) : Denotes (floor x) (⌊value x⌋ : ℤ) := by
  have hdenotes : Denotes x (value x) := ⟨hx, rfl⟩
  obtain ⟨k, htruncate, hbelow, habove, hsmall⟩ := exists_truncated hx
  have hcut : (decide (x < 0.0) && truncate x != x) = true ↔ value x < 0 ∧ value x ≠ k := by
    rw [Bool.and_eq_true, decide_eq_true_iff, hdenotes.lt_iff denotes_zero_point, bne,
      Bool.not_eq_true', ← Bool.not_eq_true, beq_iff_value htruncate.finite hx, htruncate.value_eq,
      eq_comm (a := (k : ℚ))]
  rw [floor]
  by_cases h : value x < 0 ∧ value x ≠ k
  · -- a negative number that is cut moves up, to the next integer
    have hbounds := habove h.1
    have hfloor : ⌊value x⌋ = k - 1 := by
      rw [Int.floor_eq_iff]
      push_cast
      exact ⟨hbounds.2.le, by linarith [lt_of_le_of_ne hbounds.1 h.2]⟩
    rw [if_pos (hcut.mpr h), hfloor]
    have hk := hsmall h.2
    rw [abs_lt] at hk
    refine htruncate.sub_integer (n := 1) ?_ (by rw [abs_lt]; omega)
    rw [Int.cast_one]
    exact denotes_one
  · rw [if_neg (mt hcut.mp h)]
    have hfloor : ⌊value x⌋ = k := by
      rw [Int.floor_eq_iff]
      rcases lt_or_ge (value x) 0 with hlt | hge
      · have heq : value x = k := by
          by_contra hne
          exact h ⟨hlt, hne⟩
        exact ⟨heq.ge, by linarith⟩
      · exact hbelow hge
    rw [hfloor]
    exact htruncate

end Floor

/-! ## Quotients -/

section Quotients
variable {x : Float} {q : ℚ} {n d : ℤ}

/-- The relative error of a result, of either sign, that is neither subnormal nor too large. -/
theorem IsNearest.error_abs_le (h : IsNearest x q) (hlo : rangeBottom ≤ |q|) (hhi : |q| < rangeTop) :
    |q - value x| ≤ |q| / 2 ^ 53 := by
  rcases abs_cases q with ⟨habs, -⟩ | ⟨habs, -⟩ <;> rw [habs] at hlo hhi ⊢
  · exact h.error_le hlo hhi
  · have herror := h.neg.error_le hlo hhi
    rw [value_neg, neg_sub_neg, abs_sub_comm] at herror
    exact herror

section Moderate
variable (hd : 0 < d) (hn : |n| ≤ 2 ^ 51)
include hd hn

theorem quotient_le : |(n / d : ℚ)| ≤ 2 ^ 51 := by
  have hd₁ : (1 : ℚ) ≤ d := by exact_mod_cast hd
  have hn' : |(n : ℚ)| ≤ 2 ^ 51 := by exact_mod_cast hn
  rw [abs_div, abs_of_pos (by linarith : (0 : ℚ) < d)]
  exact (div_le_self (abs_nonneg _) hd₁).trans hn'

/-- The rounding error is at most a quarter of the distance to the next integer. -/
theorem quotient_error (hd' : d ≤ 2 ^ 51) (h : IsNearest x (n / d)) :
    |(n / d : ℚ) - value x| * d ≤ 1 / 4 := by
  rcases eq_or_ne n 0 with rfl | hzero
  · rw [Int.cast_zero, zero_div] at h ⊢
    rw [(h.exact denotes_zero_point).value_eq, sub_self, abs_zero, zero_mul]
    norm_num
  have hpos : (0 : ℚ) < d := by exact_mod_cast hd
  have hd₂ : (d : ℚ) ≤ 2 ^ 51 := by exact_mod_cast hd'
  have hn₁ : (1 : ℚ) ≤ |(n : ℚ)| := by exact_mod_cast Int.one_le_abs hzero
  have hn₂ : |(n : ℚ)| ≤ 2 ^ 51 := by exact_mod_cast hn
  have hsize : |(n / d : ℚ)| = |(n : ℚ)| / d := by rw [abs_div, abs_of_pos hpos]
  have hsmall : rangeBottom ≤ |(n / d : ℚ)| := by
    refine range_bottom_le (k := -51) ?_ (by norm_num)
    rw [hsize, le_div_iff₀ hpos]
    norm_num at hd₂ ⊢
    linarith
  have hlarge := lt_range_top_of_le ((quotient_le hd hn).trans (by norm_num))
  calc |(n / d : ℚ) - value x| * d ≤ |(n / d : ℚ)| / 2 ^ 53 * d := by
        gcongr
        exact h.error_abs_le hsmall hlarge
    _ = |(n : ℚ)| / 2 ^ 53 := by
      rw [hsize]
      field_simp
    _ ≤ 1 / 4 := by linarith

/-- A rounded quotient of integers has the floor of the exact one. -/
theorem floor_of_quotient (hd' : d ≤ 2 ^ 51) (h : IsNearest x (n / d)) :
    ⌊value x⌋ = ⌊(n / d : ℚ)⌋ := by
  have hpos : (0 : ℚ) < d := by exact_mod_cast hd
  have hbounds := abs_le.mp (quotient_le hd hn)
  have hfloor := Int.floor_le (n / d : ℚ)
  have hnext := Int.lt_floor_add_one (n / d : ℚ)
  generalize ⌊(n / d : ℚ)⌋ = k at hfloor hnext ⊢
  have hk : |k| < 2 ^ 53 := by
    have hlo : (-2 ^ 51 : ℤ) < k + 1 := by exact_mod_cast hbounds.1.trans_lt hnext
    have hhi : k ≤ (2 ^ 51 : ℤ) := by exact_mod_cast hfloor.trans hbounds.2
    rw [abs_lt]
    omega
  rw [Int.floor_eq_iff]
  refine ⟨h.ge (denotes_of_int hk) hfloor, ?_⟩
  -- between an exact quotient and the next integer lies at least one part in `d`
  have hstep : (n : ℚ) + 1 ≤ (k + 1) * d := by
    rw [div_lt_iff₀ hpos] at hnext
    have hlt : n < (k + 1) * d := by exact_mod_cast hnext
    exact_mod_cast hlt
  have hexact : (n / d : ℚ) * d = n := div_mul_cancel₀ _ hpos.ne'
  have habove : (value x - n / d) * d ≤ 1 / 4 := by
    refine le_trans (mul_le_mul_of_nonneg_right ?_ hpos.le) (quotient_error hd hn hd' h)
    rw [abs_sub_comm]
    exact le_abs_self _
  rw [← mul_lt_mul_iff_left₀ hpos]
  linarith

theorem denotes_floor_div {x y : Float} (hd' : d ≤ 2 ^ 51) (hx : Denotes x n) (hy : Denotes y d) :
    Denotes (floor (x / y)) (⌊(n / d : ℚ)⌋ : ℤ) := by
  have hlarge := lt_range_top_of_le ((quotient_le hd hn).trans (by norm_num))
  have hquotient := hx.div hy (by exact_mod_cast hd.ne') hlarge
  rw [← floor_of_quotient hd hn hd' hquotient]
  exact denotes_floor hquotient.finite

end Moderate
end Quotients
end Trinomial.Number
