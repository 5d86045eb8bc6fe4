import Trinomial.Proofs.Number.Nearest

/-! # Neighbours of a square root

The square root of a number lies between two neighbouring numbers. In units of the last place of the
lower one both are integers of 53 binary digits, and so is every number above it.
-/
set_option autoImplicit false

namespace Trinomial.Number

/-- Two neighbouring numbers around the square root of `q`: `digits` units and one unit more. -/
structure Bracket (q : ℚ) where
  digits : ℕ
  scale : ℤ
  full : 2 ^ 52 ≤ digits
  digits_lt : digits < 2 ^ 53
  scale_ge : -100 ≤ scale
  scale_le : scale ≤ 460
  square_le : (digits * 2 ^ scale : ℚ) ^ 2 ≤ q
  lt_square : q < ((digits + 1) * 2 ^ scale : ℚ) ^ 2

namespace Bracket
variable {q : ℚ} (b : Bracket q)

def unit : ℚ := 2 ^ b.scale

def low : ℚ := b.digits * b.unit

def high : ℚ := (b.digits + 1) * b.unit

/-! ## Sizes -/

theorem unit_pos : 0 < b.unit := by
  rw [unit]
  positivity

theorem high_eq : b.high = b.low + b.unit := by
  rw [high, low]
  ring

theorem low_sq_le : b.low ^ 2 ≤ q := b.square_le

theorem lt_high_sq : q < b.high ^ 2 := b.lt_square

theorem le_high_mul : q ≤ b.high * b.high := b.lt_high_sq.le.trans_eq (sq _)

theorem full_cast : (2 ^ 52 : ℚ) ≤ b.digits := by exact_mod_cast b.full

theorem digits_le_cast : (b.digits : ℚ) + 1 ≤ 2 ^ 53 := by exact_mod_cast b.digits_lt

theorem le_low : 2 ^ 52 * b.unit ≤ b.low := mul_le_mul_of_nonneg_right b.full_cast b.unit_pos.le

theorem high_le : b.high ≤ 2 ^ 53 * b.unit :=
  mul_le_mul_of_nonneg_right b.digits_le_cast b.unit_pos.le

theorem low_pos : 0 < b.low := by
  have hlow := b.le_low
  have hunit := b.unit_pos
  linarith

theorem high_le_double : b.high ≤ 2 * b.low := by
  have hlow := b.le_low
  have hunit := b.unit_pos
  rw [high_eq]
  linarith

theorem low_le_high : b.low ≤ b.high := by
  rw [high_eq]
  exact le_add_of_nonneg_right b.unit_pos.le

theorem range_bottom_le_low : rangeBottom ≤ b.low := by
  have hunit : (2 : ℚ) ^ (-100 : ℤ) ≤ b.unit := zpow_le_zpow_right₀ (by norm_num) b.scale_ge
  refine range_bottom_le (k := -100) ?_ (by norm_num)
  linarith [b.le_low, b.unit_pos]

theorem high_le_power : b.high ≤ 2 ^ (513 : ℤ) := by
  have hunit : b.unit ≤ 2 ^ (460 : ℤ) := zpow_le_zpow_right₀ (by norm_num) b.scale_le
  calc b.high ≤ 2 ^ 53 * b.unit := b.high_le
    _ ≤ 2 ^ 53 * 2 ^ (460 : ℤ) := by gcongr
    _ = 2 ^ (513 : ℤ) := by
      rw [← zpow_natCast, ← zpow_add₀ (by norm_num)]
      norm_num

theorem high_lt_range : 4 * b.high < rangeTop := by
  refine lt_range_top (k := 3 + 513) ?_ (by norm_num)
  rw [zpow_add₀ (by norm_num)]
  calc 4 * b.high ≤ 4 * 2 ^ (513 : ℤ) := mul_le_mul_of_nonneg_left b.high_le_power (by norm_num)
    _ < 2 ^ (3 : ℤ) * 2 ^ (513 : ℤ) := mul_lt_mul_of_pos_right (by norm_num) (by positivity)

theorem double_high_le : 2 * b.high ≤ rangeTop := by
  linarith [b.high_lt_range, b.low_pos, b.low_le_high]

theorem double_low_le : 2 * b.low ≤ rangeTop := by
  linarith [b.double_high_le, b.low_le_high]

/-! ## Numbers near the root -/

theorem exists_units {k : ℤ} (hk : |k| ≤ 2 ^ 53) : ∃ y, Denotes y (k * b.unit) :=
  exists_dyadic hk (by have := b.scale_ge; omega) (by have := b.scale_le; omega)

theorem exists_low : ∃ y, Denotes y b.low := by
  have hlt := b.digits_lt
  obtain ⟨y, hy⟩ := b.exists_units (k := b.digits) (by rw [Nat.abs_cast]; omega)
  exact ⟨y, by exact_mod_cast hy⟩

theorem exists_high : ∃ y, Denotes y b.high := by
  have hlt := b.digits_lt
  obtain ⟨y, hy⟩ := b.exists_units (k := b.digits + 1) (by rw [abs_of_nonneg (by omega)]; omega)
  rw [Int.cast_add, Int.cast_one, Int.cast_natCast] at hy
  exact ⟨y, hy⟩

variable {v w : ℚ} {y z : Float}

theorem exists_double (hy : Denotes y v) (hge : b.low ≤ v) (hle : 2 * v ≤ rangeTop) :
    ∃ z, Denotes z (2 * v) :=
  hy.exists_double (b.range_bottom_le_low.trans hge) hle

theorem integral (hy : Denotes y v) (hle : 2 ^ 52 * b.unit ≤ v) : ∃ j : ℤ, v = j * b.unit := by
  have hpow : (2 : ℚ) ^ (52 + b.scale) ≤ v := by
    rw [zpow_add₀ (by norm_num)]
    exact hle
  obtain ⟨j, hj⟩ := hy.dyadic hpow
  rw [add_sub_cancel_left] at hj
  exact ⟨j, hj⟩

/-- Above the lower neighbour numbers are at least a unit apart. -/
theorem add_unit_le (hy : Denotes y v) (hz : Denotes z w) (hle : b.low ≤ v) (hlt : v < w) :
    v + b.unit ≤ w := by
  obtain ⟨j, rfl⟩ := b.integral hy (b.le_low.trans hle)
  obtain ⟨k, rfl⟩ := b.integral hz (b.le_low.trans (hle.trans hlt.le))
  have hjk : (j : ℚ) < k := lt_of_mul_lt_mul_right hlt b.unit_pos.le
  have hstep : (j : ℚ) + 1 ≤ k := by exact_mod_cast hjk
  calc (j : ℚ) * b.unit + b.unit = (j + 1) * b.unit := by ring
    _ ≤ k * b.unit := mul_le_mul_of_nonneg_right hstep b.unit_pos.le

/-- No number lies between the neighbours. -/
theorem high_le_of_lt (hz : Denotes z w) (hlt : b.low < w) : b.high ≤ w := by
  obtain ⟨y, hy⟩ := b.exists_low
  rw [high_eq]
  exact b.add_unit_le hy hz le_rfl hlt

theorem eq_low_or_high (hz : Denotes z w) (hle : b.low ≤ w) (hle' : w ≤ b.high) :
    w = b.low ∨ w = b.high := by
  rcases hle.eq_or_lt with heq | hlt
  · exact .inl heq.symm
  · exact .inr (le_antisymm hle' (b.high_le_of_lt hz hlt))

/-- Below the lower neighbour too, unless it is a power of two. -/
theorem le_sub_unit (hz : Denotes z w) (hfull : 2 ^ 52 < b.digits) (hlt : w < b.low) :
    w ≤ b.low - b.unit := by
  have hle : 2 ^ 52 * b.unit ≤ b.low - b.unit := by
    have hcast : (2 ^ 52 + 1 : ℚ) ≤ b.digits := by exact_mod_cast hfull
    have hunits := mul_le_mul_of_nonneg_right hcast b.unit_pos.le
    rw [low]
    linarith
  rcases lt_or_ge w (2 ^ 52 * b.unit) with hsmall | hbig
  · exact hsmall.le.trans hle
  · obtain ⟨j, rfl⟩ := b.integral hz hbig
    have hj : (j : ℚ) < b.digits := lt_of_mul_lt_mul_right hlt b.unit_pos.le
    have hstep : (j : ℚ) + 1 ≤ b.digits := by exact_mod_cast hj
    have hunits := mul_le_mul_of_nonneg_right hstep b.unit_pos.le
    rw [low]
    linarith

/-- Above a power of two numbers are at least two units apart. -/
theorem add_two_units_le (hz : Denotes z w) (hfull : b.digits + 1 = 2 ^ 53) (hlt : b.high < w) :
    b.high + 2 * b.unit ≤ w := by
  have hhigh : b.high = (2 ^ 52 : ℤ) * (2 * b.unit) := by
    have hcast : (b.digits : ℚ) + 1 = 2 ^ 53 := by exact_mod_cast hfull
    rw [high, hcast]
    push_cast
    ring
  have hpow : (2 : ℚ) ^ (53 + b.scale) ≤ w := by
    refine le_of_eq_of_le ?_ hlt.le
    rw [hhigh, zpow_add₀ (by norm_num), unit]
    norm_num
    ring
  obtain ⟨j, hj⟩ := hz.dyadic hpow
  have hvalue : w = j * (2 * b.unit) := by
    rw [hj, unit, ← zpow_one_add₀ (by norm_num)]
    congr 2
    ring
  have hunit : 0 < 2 * b.unit := mul_pos two_pos b.unit_pos
  rw [hvalue, hhigh] at hlt
  have hcells : ((2 ^ 52 : ℤ) : ℚ) < j := lt_of_mul_lt_mul_right hlt hunit.le
  have hstep : ((2 ^ 52 : ℤ) : ℚ) + 1 ≤ j := by exact_mod_cast hcells
  calc b.high + 2 * b.unit = ((2 ^ 52 : ℤ) + 1) * (2 * b.unit) := by
        rw [hhigh]
        ring
    _ ≤ j * (2 * b.unit) := mul_le_mul_of_nonneg_right hstep hunit.le
    _ = w := hvalue.symm

/-- The reflection at the lower neighbour of a number above it is a number, or negative. -/
theorem exists_reflection (hy : Denotes y v) (hle : b.low ≤ v) (hlt : v < 2 * b.low) :
    ∃ z, Denotes z (2 * b.low - v) := by
  obtain ⟨j, rfl⟩ := b.integral hy (b.le_low.trans hle)
  have hlo : (b.digits : ℤ) ≤ j := by
    exact_mod_cast le_of_mul_le_mul_right hle b.unit_pos
  have hhi : j < 2 * b.digits := by
    rw [low, ← mul_assoc] at hlt
    exact_mod_cast lt_of_mul_lt_mul_right hlt b.unit_pos.le
  have hdigits := b.digits_lt
  obtain ⟨z, hz⟩ := b.exists_units (k := 2 * b.digits - j) (by rw [abs_of_nonneg (by omega)]; omega)
  have hvalue : ((2 * b.digits - j : ℤ) : ℚ) * b.unit = 2 * b.low - j * b.unit := by
    rw [low]
    push_cast
    ring
  exact ⟨z, hvalue ▸ hz⟩

/-! ## The radicand -/

theorem cells_le_iff {m n : ℤ} : m * b.unit ^ 2 ≤ n * b.unit ^ 2 ↔ m ≤ n := by
  rw [mul_le_mul_iff_of_pos_right (pow_pos b.unit_pos 2), Int.cast_le]

/-- In squares of a unit the radicand is a multiple of `2 ^ 52`. -/
theorem exists_cells (hy : Denotes y q) : ∃ n : ℤ, q = (n * 2 ^ 52 : ℤ) * b.unit ^ 2 ∧
    n * 2 ^ 52 < (b.digits + 1) ^ 2 := by
  have hpow : (2 : ℚ) ^ (52 + (52 + (b.scale + b.scale))) ≤ q := by
    have hsquare : (2 ^ 52 * b.unit) ^ 2 ≤ q :=
      (pow_le_pow_left₀ (by positivity [b.unit_pos]) b.le_low 2).trans b.low_sq_le
    refine le_of_eq_of_le ?_ hsquare
    rw [zpow_add₀ (by norm_num), zpow_add₀ (by norm_num), zpow_add₀ (by norm_num), unit]
    ring
  obtain ⟨n, hn⟩ := hy.dyadic hpow
  have hcells : q = (n * 2 ^ 52 : ℤ) * b.unit ^ 2 := by
    refine hn.trans ?_
    rw [add_sub_cancel_left, zpow_add₀ (by norm_num), zpow_add₀ (by norm_num), unit]
    push_cast
    ring
  refine ⟨n, hcells, ?_⟩
  have hlt := b.lt_high_sq
  rw [high, mul_pow] at hlt
  have hcast := lt_of_mul_lt_mul_right (hcells.symm.trans_lt hlt) (pow_pos b.unit_pos 2).le
  exact_mod_cast hcast

/-- Between these two bounds there is no radicand: it would make the digits, or the digits and one, a
multiple of `2 ^ 53`. -/
theorem no_cells {n : ℤ} (hpower : b.digits + 1 ≠ 2 ^ 53)
    (hlo : (b.digits * (2 * b.digits + 3) : ℤ) ≤ 2 * (n * 2 ^ 52))
    (hhi : 2 * (n * 2 ^ 52) ≤ ((b.digits + 1) * (2 * b.digits + 1) : ℤ)) : False := by
  have hfull := b.full
  have hlt := b.digits_lt
  have hodd (k : ℤ) (hk : Odd k) : IsCoprime (2 ^ 53) k := (Int.isCoprime_two_left.mpr hk).pow_left
  have hends : 2 ^ 53 * n = b.digits * (2 * b.digits + 3) ∨
      2 ^ 53 * n = (b.digits + 1) * (2 * b.digits + 1) := by
    have hnext : ((b.digits + 1) * (2 * b.digits + 1) : ℤ) = b.digits * (2 * b.digits + 3) + 1 := by ring
    omega
  rcases hends with hend | hend
  · have hdvd := (hodd _ ⟨b.digits + 1, by ring⟩).dvd_of_dvd_mul_right (Dvd.intro n hend)
    have hle := Int.le_of_dvd (by omega) hdvd
    omega
  · have hdvd := (hodd _ ⟨b.digits, by ring⟩).dvd_of_dvd_mul_right (Dvd.intro n hend)
    have hle := Int.le_of_dvd (by omega) hdvd
    omega

end Bracket

/-! ## Existence -/

/-- Every number in range has neighbours around its square root. -/
theorem exists_bracket {q : ℚ} (hlo : 2 ^ (-40 : ℤ) ≤ q) (hhi : q < 2 * rangeTop) :
    Nonempty (Bracket q) := by
  have hq : 0 < q := lt_of_lt_of_le (by positivity) hlo
  have hmin : -40 ≤ Int.log 2 q := (Int.zpow_le_iff_le_log (by decide) hq).mp hlo
  have hmax : Int.log 2 q < 1 + 1023 := by
    rw [range_top_eq, ← zpow_one_add₀ two_ne_zero] at hhi
    exact log_lt_of_lt hq hhi
  -- an even power of two brings the radicand to 105 or 106 binary digits
  obtain ⟨s, hs⟩ : ∃ s : ℤ, s = Int.log 2 q / 2 - 52 := ⟨_, rfl⟩
  have hsquare : (0 : ℚ) < (2 ^ s) ^ 2 := by positivity
  have hpower (k : ℕ) : (2 ^ k * 2 ^ k * (2 ^ s) ^ 2 : ℚ) = 2 ^ (k + k + (s + s)) := by
    rw [zpow_add₀ (by norm_num), zpow_add₀ (by norm_num), zpow_add₀ (by norm_num), zpow_natCast, sq]
  have hwide : (2 ^ 52 * 2 ^ 52 : ℚ) ≤ q / (2 ^ s) ^ 2 := by
    rw [le_div_iff₀ hsquare, hpower]
    refine le_trans ?_ (Int.zpow_log_le_self (b := 2) (by decide) hq)
    exact zpow_le_zpow_right₀ (by norm_num) (by omega)
  have hnarrow : q / (2 ^ s) ^ 2 < 2 ^ 53 * 2 ^ 53 := by
    rw [div_lt_iff₀ hsquare, hpower]
    refine lt_of_lt_of_le (Int.lt_zpow_succ_log_self (b := 2) (by decide) q) ?_
    exact zpow_le_zpow_right₀ (by norm_num) (by omega)
  obtain ⟨n, hn⟩ : ∃ n : ℕ, n = ⌊q / (2 ^ s) ^ 2⌋₊ := ⟨_, rfl⟩
  have hfloor : (n : ℚ) ≤ q / (2 ^ s) ^ 2 := hn ▸ Nat.floor_le (by positivity)
  have hceil : q / (2 ^ s) ^ 2 < n + 1 := hn ▸ Nat.lt_floor_add_one _
  refine ⟨n.sqrt, s, ?_, ?_, by omega, by omega, ?_, ?_⟩
  · rw [Nat.le_sqrt, hn, Nat.le_floor_iff (by positivity)]
    exact_mod_cast hwide
  · rw [Nat.sqrt_lt, hn, Nat.floor_lt (by positivity)]
    exact_mod_cast hnarrow
  · rw [mul_pow, ← le_div_iff₀ hsquare]
    have hle : ((n.sqrt : ℚ)) ^ 2 ≤ n := by exact_mod_cast Nat.sqrt_le' n
    exact hle.trans hfloor
  · rw [mul_pow, ← div_lt_iff₀ hsquare]
    have hlt : (n : ℚ) + 1 ≤ (n.sqrt + 1) ^ 2 := by exact_mod_cast Nat.lt_succ_sqrt' n
    exact hceil.trans_le hlt

end Trinomial.Number
