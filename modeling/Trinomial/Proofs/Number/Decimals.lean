import Trinomial.Number.Reading
import Trinomial.Proofs.Number.Arithmetic

/-! # Decimals and the numbers nearest to them

The shortest decimal of a number lies in its rounding cell, and every decimal in the cell of a number is
read as that number.
-/
set_option autoImplicit false

namespace Trinomial

def Decimal.value (d : Decimal) : ℚ := d.digits * 10 ^ d.exponent

/-! ## The rounding interval -/

namespace Magnitude
variable {x : Magnitude}

theorem zpow_eq_div {b : ℚ} (hb : b ≠ 0) (e : ℤ) : b ^ e = b ^ e.toNat / b ^ (-e).toNat := by
  rw [eq_div_iff (pow_ne_zero _ hb), ← zpow_natCast, ← zpow_natCast, ← zpow_add₀ hb]
  congr 1
  omega

theorem grid_unit_eq (x : Magnitude) (grid : ℤ) :
    x.gridUnit grid = 2 ^ x.scale.toNat * 10 ^ (-grid).toNat := rfl

theorem grid_den_eq (x : Magnitude) (grid : ℤ) :
    x.gridDen grid = 2 ^ (-x.scale).toNat * 10 ^ grid.toNat := rfl

/-- A decimal in units of the last place. -/
theorem value_div_unit (x : Magnitude) (d : Decimal) :
    d.value / 2 ^ x.scale = (d.digits * x.gridDen d.exponent : ℕ) / (x.gridUnit d.exponent : ℕ) := by
  rw [Decimal.value, zpow_eq_div (b := 10) (by norm_num), zpow_eq_div (b := 2) (by norm_num),
    grid_den_eq, grid_unit_eq]
  push_cast
  field_simp

theorem grid_unit_pos (x : Magnitude) (grid : ℤ) : 0 < x.gridUnit grid := by
  rw [grid_unit_eq]
  positivity

section Bounds
variable {m c u p : ℕ}

theorem low_le_iff (hu : 0 < u) :
    4 * (m * u) - c * u ≤ 4 * p ↔ (m - c / 4 : ℚ) ≤ p / u := by
  rw [le_div_iff₀ (by exact_mod_cast hu), Nat.sub_le_iff_le_add]
  constructor <;> intro h
  · have : 4 * ((m : ℚ) * u) ≤ 4 * p + c * u := by exact_mod_cast h
    linarith
  · have : 4 * ((m : ℚ) * u) ≤ 4 * p + c * u := by linarith
    exact_mod_cast this

theorem low_lt_iff (hu : 0 < u) (hc : c ≤ 4 * m) :
    4 * (m * u) - c * u < 4 * p ↔ (m - c / 4 : ℚ) < p / u := by
  have hle : c * u ≤ 4 * (m * u) := by
    rw [← Nat.mul_assoc]
    exact Nat.mul_le_mul_right u hc
  rw [lt_div_iff₀ (by exact_mod_cast hu), Nat.sub_lt_iff_lt_add hle]
  constructor <;> intro h
  · have : 4 * ((m : ℚ) * u) < 4 * p + c * u := by exact_mod_cast h
    linarith
  · have : 4 * ((m : ℚ) * u) < 4 * p + c * u := by linarith
    exact_mod_cast this

theorem le_high_iff (hu : 0 < u) : 4 * p ≤ 4 * (m * u) + 2 * u ↔ (p / u : ℚ) ≤ m + 1 / 2 := by
  rw [div_le_iff₀ (by exact_mod_cast hu)]
  constructor <;> intro h
  · have : 4 * (p : ℚ) ≤ 4 * (m * u) + 2 * u := by exact_mod_cast h
    linarith
  · have : 4 * (p : ℚ) ≤ 4 * (m * u) + 2 * u := by linarith
    exact_mod_cast this

theorem lt_high_iff (hu : 0 < u) : 4 * p < 4 * (m * u) + 2 * u ↔ (p / u : ℚ) < m + 1 / 2 := by
  rw [div_lt_iff₀ (by exact_mod_cast hu)]
  constructor <;> intro h
  · have : 4 * (p : ℚ) < 4 * (m * u) + 2 * u := by exact_mod_cast h
    linarith
  · have : 4 * (p : ℚ) < 4 * (m * u) + 2 * u := by linarith
    exact_mod_cast this

end Bounds

/-- The integer test for the interval decides the cell. -/
theorem covers_iff (hx : x.Regular) (d : Decimal) : x.covers d = true ↔ x.Cell d.value := by
  have hu := grid_unit_pos x d.exponent
  have hpos := hx.pos
  have hc : (if x.narrowBelow then 1 else 2) ≤ 4 * x.significand := by split_ifs <;> omega
  have hgap : (if x.narrowBelow then 1 / 4 else 1 / 2 : ℚ) =
      ((if x.narrowBelow then 1 else 2 : ℕ) : ℚ) / 4 := by split_ifs <;> norm_num
  rw [Cell, value_div_unit, hgap]
  simp only [covers, gridNum, Nat.mul_assoc]
  generalize (if x.narrowBelow = true then 1 else 2 : ℕ) = c at hc
  split_ifs with heven
  all_goals rw [Bool.and_eq_true, decide_eq_true_iff, decide_eq_true_iff]
  · rw [low_le_iff hu, le_high_iff hu]
  · rw [low_lt_iff hu hc, lt_high_iff hu]

/-! ## The shortest decimal -/

theorem on_grid_covers {grid : ℤ} {d : Decimal} (h : x.onGrid grid = some d) :
    x.covers d = true := by
  unfold onGrid at h
  dsimp only at h
  split at h
  · split at h <;> cases h <;> assumption
  · cases h
    assumption
  · cases h
    assumption
  · cases h

theorem exact_value (x : Magnitude) : x.exact.value = x.value := by
  rw [exact, value]
  simp only [Nat.pow_eq]
  split_ifs with h
  · rw [Decimal.value, zpow_eq_div (by norm_num) x.scale]
    have h0 : (-x.scale).toNat = 0 := by omega
    rw [h0]
    push_cast
    ring
  · rw [Decimal.value, zpow_eq_div (b := 10) (by norm_num), zpow_eq_div (b := 2) (by norm_num)]
    have h0 : x.scale.toNat = 0 := by omega
    have h10 : (10 : ℚ) ^ (-x.scale).toNat = 2 ^ (-x.scale).toNat * 5 ^ (-x.scale).toNat := by
      rw [← mul_pow]
      norm_num
    rw [h0, h10]
    push_cast
    field_simp

theorem search_cell (hx : x.Regular) (count : ℕ) (grid : ℤ) : x.Cell (x.search count grid).value := by
  induction count generalizing grid with
  | zero =>
    rw [search, exact_value]
    exact cell_value x
  | succ count ih =>
    rw [search]
    cases h : x.onGrid grid with
    | none => exact ih (grid - 1)
    | some d => exact (covers_iff hx d).mp (on_grid_covers h)

/-- What is printed for a number rounds to it. -/
theorem shortest_cell (hx : x.Regular) : x.Cell x.shortest.value := by
  rw [shortest, if_neg hx.pos.ne']
  exact search_cell hx 60 _

end Magnitude

/-! ## Reading -/

namespace Number
open Float.Model Float.Model.UnpackedFloat

/-- The number is `q` exactly, with a full significand. -/
def Exactly (x : Float) (q : ℚ) : Prop :=
  ∃ m e, ∃ hm : 0 < m, parts x = .finite .positive m e hm ∧ 2 ^ 52 ≤ m ∧ m * 2 ^ e = q

theorem Exactly.mul {x y : Float} {p q : ℚ} (hx : Exactly x p) (hy : Exactly y q) :
    x * y = ofParts (roundTo .positive (p * q)) := by
  obtain ⟨m₁, e₁, h₁, hp₁, hbig₁, rfl⟩ := hx
  obtain ⟨m₂, e₂, h₂, hp₂, -, rfl⟩ := hy
  rw [mul_eq, hp₁, hp₂, mul_finite h₁ h₂ (.inl (hbig₁.trans (Nat.le_mul_of_pos_right _ h₂)))]
  rfl

theorem Exactly.div {x y : Float} {p q : ℚ} (hx : Exactly x p) (hy : Exactly y q) :
    x / y = ofParts (roundTo .positive (p / q)) := by
  obtain ⟨m₁, e₁, h₁, hp₁, -, rfl⟩ := hx
  obtain ⟨m₂, e₂, h₂, hp₂, -, rfl⟩ := hy
  rw [div_eq, hp₁, hp₂, div_finite h₁ h₂]
  rfl

/-- Shifting a short significand to its full width. -/
theorem full_width {n : ℕ} (hn : 0 < n) (hlt : n < 2 ^ 53) :
    ∃ k, n.log2 + k = 52 ∧ 2 ^ 52 ≤ n * 2 ^ k ∧ n * 2 ^ k < 2 ^ 53 := by
  have hlog : n.log2 < 53 := (Nat.log2_lt hn.ne').mpr hlt
  obtain ⟨k, hk⟩ : ∃ k, n.log2 + k = 52 := ⟨52 - n.log2, by omega⟩
  refine ⟨k, hk, ?_, ?_⟩
  · calc 2 ^ 52 = 2 ^ n.log2 * 2 ^ k := by rw [← hk, pow_add]
      _ ≤ n * 2 ^ k := Nat.mul_le_mul_right _ (Nat.log2_self_le hn.ne')
  · calc n * 2 ^ k < 2 ^ (n.log2 + 1) * 2 ^ k :=
          Nat.mul_lt_mul_of_pos_right Nat.lt_log2_self (by positivity)
      _ = 2 ^ 53 := by rw [← pow_add, add_right_comm, hk]

theorem normalize_eq {n k : ℕ} (hn : 0 < n) (hk : n.log2 + k = 52) :
    UnpackedFloat.normalize Format.binary64 n 0 .positive =
      roundWithAccuracy Format.binary64 .positive (n * 2 ^ k) (-k) .exact := by
  have hgt : compare (n : ℤ) 0 = .gt := by
    rw [Int.compare_eq_gt]
    exact_mod_cast hn
  have htarget : Format.binary64.targetExponent (totalExponent n 0) = -k := by
    rw [target_exponent_eq_max]
    omega
  have hshift : (0 - -(k : ℤ)).toNat = k := by omega
  rw [UnpackedFloat.normalize, hgt]
  dsimp only
  rw [Int.toNat_natCast, UnpackedFloat.round, htarget, decreaseExponent, hshift, Nat.shiftLeft_eq,
    zero_sub]

/-- An integer of at most 53 binary digits is a number. -/
theorem exactly_of_lt {n : ℕ} (hn : 0 < n) (hlt : n < 2 ^ 53) : Exactly n.toUInt64.toFloat n := by
  obtain ⟨k, hk, hbig, hsmall⟩ := full_width hn hlt
  have hm : 0 < n * 2 ^ k := by positivity
  have hfits : Fits (.finite .positive (n * 2 ^ k) (-(k : ℤ)) hm) :=
    ⟨hsmall, by omega, by omega, .inl hbig⟩
  have hn64 : n.toUInt64.toNat = n := by
    rw [Nat.toUInt64, UInt64.toNat_ofNat']
    omega
  refine ⟨n * 2 ^ k, -k, hm, ?_, hbig, ?_⟩
  · change parts (ofParts (.normalize Format.binary64 (n.toUInt64.toNat : ℤ) 0 .positive)) = _
    rw [hn64, normalize_eq hn hk, round_exact _ hm (.inl hbig), round_to_fits hfits,
      parts_of_parts hfits]
  · rw [zpow_neg, zpow_natCast]
    push_cast
    field_simp

theorem exactly_of_magnitude {x : Float} {q : ℚ} (hexp : exponentField x ≠ 2047)
    (hsign : isNegative x = false) (hbig : 2 ^ 52 ≤ (magnitude x).significand)
    (hq : (magnitude x).value = q) : Exactly x q := by
  have hpos : 0 < (magnitude x).significand := by omega
  refine ⟨_, _, hpos, ?_, hbig, hq⟩
  rw [parts_eq, if_neg hexp, dif_pos hpos, signOf, hsign]
  rfl

/-- The entries of the table of powers of ten are what they stand for. -/
theorem power_of_ten_fields : ∀ e : Fin 23,
    exponentField Float.exactlyRepresentablePowersOfTen[e] ≠ 2047 ∧
      isNegative Float.exactlyRepresentablePowersOfTen[e] = false ∧
      2 ^ 52 ≤ (magnitude Float.exactlyRepresentablePowersOfTen[e]).significand ∧
      (magnitude Float.exactlyRepresentablePowersOfTen[e]).significand *
          2 ^ (magnitude Float.exactlyRepresentablePowersOfTen[e]).scale.toNat =
        10 ^ (e : ℕ) * 2 ^ (-(magnitude Float.exactlyRepresentablePowersOfTen[e]).scale).toNat := by
  decide +kernel

theorem exactly_power_of_ten (e : Fin 23) :
    Exactly Float.exactlyRepresentablePowersOfTen[e] (10 ^ (e : ℕ)) := by
  obtain ⟨hexp, hsign, hbig, hvalue⟩ := power_of_ten_fields e
  refine exactly_of_magnitude hexp hsign hbig ?_
  rw [Magnitude.value, Magnitude.zpow_eq_div (by norm_num), ← mul_div_assoc,
    div_eq_iff (by positivity)]
  exact_mod_cast hvalue

/-- A number read in the fast way: both the digits and the power of ten are numbers. -/
theorem of_scientific_short {m e : ℕ} (hm : 0 < m) (h : m < 2 ^ 53 ∧ e ≤ 22) (negative : Bool) :
    Float.ofScientific m negative e =
      ofParts (roundTo .positive (if negative then m / 10 ^ e else m * 10 ^ e)) := by
  have hdigits := exactly_of_lt hm h.1
  have hpower := exactly_power_of_ten ⟨e, by omega⟩
  rw [Float.ofScientific, dif_pos h]
  cases negative with
  | false => exact hdigits.mul hpower
  | true => exact hdigits.div hpower

theorem round_to_small {q : ℚ} (hq : 0 < q) (h : q < 2 ^ (-1075 : ℤ)) (s : Sign) :
    roundTo s q = .zero s := by
  have hgrid : grid q = -1074 := by
    have hlog := log_lt_of_lt hq h
    rw [grid]
    omega
  have hnearest : nearest (q / 2 ^ grid q) = 0 := by
    have hhalf : (2 : ℚ) ^ (-1075 : ℤ) = 1 / 2 * 2 ^ (-1074 : ℤ) := by
      rw [one_div, ← zpow_neg_one, ← zpow_add₀ (by norm_num)]
      rfl
    rw [hgrid]
    refine nearest_below (by positivity) ?_
    rw [div_lt_iff₀ (by positivity)]
    simpa [hhalf] using h
  rw [roundTo, dif_pos hnearest]

/-- A power of ten so low outweighs all digits. -/
theorem digits_outweighed {m : ℕ} {e : ℤ} (h : e < -(2048 + (m.log2 : ℤ))) :
    (m * 10 ^ e : ℚ) < 2 ^ (-1075 : ℤ) := by
  obtain ⟨n, rfl⟩ : ∃ n : ℕ, e = -n := ⟨(-e).toNat, by omega⟩
  have hdigits : (m : ℚ) < 2 ^ (m.log2 + 1) := by exact_mod_cast Nat.lt_log2_self
  calc (m : ℚ) * 10 ^ (-(n : ℤ)) = m * (10 ^ n)⁻¹ := by rw [zpow_neg, zpow_natCast]
    _ ≤ m * (2 ^ n)⁻¹ := by
      gcongr
      norm_num
    _ < 2 ^ (m.log2 + 1) * (2 ^ n)⁻¹ := by gcongr
    _ = 2 ^ (m.log2 + 1 - n : ℤ) := by
      rw [zpow_sub₀ (by norm_num), zpow_natCast, div_eq_mul_inv]
      exact_mod_cast rfl
    _ ≤ 2 ^ (-1075 : ℤ) := zpow_le_zpow_right₀ (by norm_num) (by omega)

theorem of_scientific_tiny {m : ℕ} {e : ℤ} (hm : 0 < m) (hlo : e < -(2048 + (m.log2 : ℤ))) :
    UnpackedFloat.ofScientific Format.binary64 m e = roundTo .positive (m * 10 ^ e) := by
  have hexp : (2 : ℤ) ^ Format.binary64.exponentBits = 2048 := by decide
  have hpos : (0 : ℚ) < m * 10 ^ e := by positivity
  rw [round_to_small hpos (digits_outweighed hlo), UnpackedFloat.ofScientific, dif_neg hm.ne', hexp,
    if_neg (by omega), if_pos hlo]

theorem of_scientific_long {m : ℕ} {e : ℤ} (hm : 0 < m) (hhi : e ≤ 2048) :
    UnpackedFloat.ofScientific Format.binary64 m e = roundTo .positive (m * 10 ^ e) := by
  rcases lt_or_ge e (-(2048 + (m.log2 : ℤ))) with hlo | hlo
  · exact of_scientific_tiny hm hlo
  have hbits : Format.binary64.mantissaBits = 53 := by decide
  have hexp : (2 : ℤ) ^ Format.binary64.exponentBits = 2048 := by decide
  rw [UnpackedFloat.ofScientific, dif_neg hm.ne', hexp, if_neg (by omega), if_neg (by omega)]
  split_ifs with h0
  · have hm' : 0 < m <<< 53 := by
      rw [Nat.shiftLeft_eq]
      positivity
    have hbig : 2 ^ 52 ≤ m <<< 53 * 10 ^ e.toNat := by
      rw [Nat.shiftLeft_eq]
      have : 0 < 10 ^ e.toNat := by positivity
      nlinarith
    have hten : (10 : ℚ) ^ e = 10 ^ e.toNat := by
      rw [← zpow_natCast, Int.toNat_of_nonneg h0]
    refine (mul_finite hm' (by positivity) (.inl hbig)).trans ?_
    rw [hbits, Nat.shiftLeft_eq, hten, zpow_neg, zpow_natCast]
    congr 1
    push_cast
    field_simp
    norm_num
  · have hten : (10 : ℚ) ^ e = (10 ^ (-e).toNat)⁻¹ := by
      rw [← zpow_natCast, ← zpow_neg, Int.toNat_of_nonneg (by omega), neg_neg]
    refine (div_finite hm (by positivity)).trans ?_
    rw [hten]
    congr 1
    push_cast
    field_simp

theorem Exactly.zero_mul {x : Float} {q : ℚ} (h : Exactly x q) : 0.0 * x = 0.0 := by
  obtain ⟨m, e, hm, hparts, -⟩ := h
  rw [mul_eq, parts_zero, hparts]
  rfl

theorem Exactly.zero_div {x : Float} {q : ℚ} (h : Exactly x q) : 0.0 / x = 0.0 := by
  obtain ⟨m, e, hm, hparts, -⟩ := h
  rw [div_eq, parts_zero, hparts]
  rfl

/-- A decimal without digits other than zeros is read as zero, whatever its exponent. -/
theorem of_decimal_zero (e : ℤ) : ofDecimal ⟨0, e⟩ = 0.0 := by
  have hzero : (0 : ℕ).toUInt64.toFloat = 0.0 := by rfl
  have hlong (k : ℤ) : ofParts (UnpackedFloat.ofScientific Format.binary64 0 k) = 0.0 := by
    rw [UnpackedFloat.ofScientific, dif_pos rfl]
    rfl
  rw [ofDecimal, Float.ofScientific]
  dsimp only
  split_ifs with hshort hneg
  · rw [hzero]
    exact (exactly_power_of_ten ⟨e.natAbs, by omega⟩).zero_div
  · rw [hzero]
    exact (exactly_power_of_ten ⟨e.natAbs, by omega⟩).zero_mul
  · exact hlong _
  · exact hlong _

theorem round_to_zero (s : Sign) : roundTo s 0 = .zero s := by
  have hnearest : nearest (0 / 2 ^ grid 0) = 0 := by
    rw [zero_div]
    exact nearest_below (by norm_num) (by norm_num)
  rw [roundTo, dif_pos hnearest]

/-- A decimal is read as the number nearest to it, whatever its digits are. -/
theorem of_decimal_eq {d : Decimal} (hhi : d.exponent ≤ 2048) :
    ofDecimal d = ofParts (roundTo .positive d.value) := by
  obtain ⟨m, e⟩ := d
  rcases Nat.eq_zero_or_pos m with rfl | hd
  · rw [of_decimal_zero, Decimal.value, Nat.cast_zero, zero_mul, round_to_zero]
    rfl
  rw [ofDecimal, Decimal.value]
  dsimp only at hhi ⊢
  by_cases h : m < 2 ^ 53 ∧ e.natAbs ≤ 22
  · rw [of_scientific_short hd h]
    congr 2
    by_cases he : e < 0
    · obtain ⟨n, rfl⟩ : ∃ n : ℕ, e = -n := ⟨e.natAbs, by omega⟩
      rw [decide_eq_true he, if_pos rfl, Int.natAbs_neg, Int.natAbs_natCast, zpow_neg, zpow_natCast,
        div_eq_mul_inv]
    · obtain ⟨n, rfl⟩ : ∃ n : ℕ, e = n := ⟨e.natAbs, by omega⟩
      rw [decide_eq_false he, if_neg (by decide), Int.natAbs_natCast, zpow_natCast]
  · rw [Float.ofScientific, dif_neg h, ← of_scientific_long hd hhi]
    by_cases he : e < 0
    · obtain ⟨n, rfl⟩ : ∃ n : ℕ, e = -n := ⟨e.natAbs, by omega⟩
      rw [decide_eq_true he, if_pos rfl, Int.natAbs_neg, Int.natAbs_natCast, Int.negOfNat_eq]
      rfl
    · obtain ⟨n, rfl⟩ : ∃ n : ℕ, e = n := ⟨e.natAbs, by omega⟩
      rw [decide_eq_false he, if_neg (by decide), Int.natAbs_natCast]
      rfl

/-! ## Cells are far from the ends of the range -/

section Range
variable {x : Magnitude} {d : Decimal}

theorem cell_range {q : ℚ} (hx : x.Regular) (h : x.Cell q) :
    2 ^ (-1075 : ℤ) ≤ q ∧ q < 2 ^ (1024 : ℤ) := by
  obtain ⟨hlo, hhi, -⟩ := Magnitude.cell_bounds h
  rw [le_div_iff₀ (by positivity)] at hlo
  rw [div_le_iff₀ (by positivity)] at hhi
  have hpos : (1 : ℚ) ≤ x.significand := by exact_mod_cast hx.pos
  have hlt : (x.significand : ℚ) + 1 ≤ 2 ^ (53 : ℤ) := by exact_mod_cast hx.lt
  constructor
  · calc (2 : ℚ) ^ (-1075 : ℤ) = 2 ^ (-1 : ℤ) * 2 ^ (-1074 : ℤ) := by
          rw [← zpow_add₀ (by norm_num)]
          rfl
      _ = 1 / 2 * 2 ^ (-1074 : ℤ) := by rw [zpow_neg_one, one_div]
      _ ≤ 1 / 2 * 2 ^ x.scale := by
        gcongr
        · norm_num
        · exact hx.min_le
      _ ≤ (x.significand - 1 / 2) * 2 ^ x.scale := by
        gcongr
        linarith
      _ ≤ q := hlo
  · calc q ≤ (x.significand + 1 / 2) * 2 ^ x.scale := hhi
      _ < 2 ^ (53 : ℤ) * 2 ^ x.scale := by
        gcongr
        linarith
      _ ≤ 2 ^ (53 : ℤ) * 2 ^ (971 : ℤ) := by
        gcongr
        · norm_num
        · exact hx.le_max
      _ = 2 ^ (1024 : ℤ) := by rw [← zpow_add₀ (by norm_num)]; rfl

theorem digits_pos_of_cell (hx : x.Regular) (h : x.Cell d.value) : 0 < d.digits := by
  apply Nat.pos_of_ne_zero
  intro h0
  have hlo := (cell_range hx h).1
  rw [Decimal.value, h0, Nat.cast_zero, zero_mul] at hlo
  exact absurd hlo (not_le.mpr (by positivity))

theorem exponent_le_of_cell (hx : x.Regular) (h : x.Cell d.value) : d.exponent ≤ 2048 := by
  by_contra hgt
  have hdigits : (1 : ℚ) ≤ d.digits := by exact_mod_cast digits_pos_of_cell hx h
  obtain ⟨n, hn⟩ : ∃ n : ℕ, d.exponent = n := ⟨d.exponent.toNat, by omega⟩
  have hhi := (cell_range hx h).2
  rw [Decimal.value, hn, zpow_natCast] at hhi
  have : (2 : ℚ) ^ 1024 ≤ d.digits * 10 ^ n := by
    calc (2 : ℚ) ^ 1024 ≤ 2 ^ n := pow_le_pow_right₀ (by norm_num) (by omega)
      _ ≤ 10 ^ n := pow_le_pow_left₀ (by norm_num) (by norm_num) n
      _ ≤ d.digits * 10 ^ n := le_mul_of_one_le_left (by positivity) hdigits
  exact absurd hhi (not_lt.mpr (by exact_mod_cast this))

end Range

/-- Every decimal in the cell of a number is read as that number. -/
theorem of_decimal_of_cell {x : Float} {d : Decimal} (hx : (magnitude x).Regular)
    (hparts : parts x = .finite .positive (magnitude x).significand (magnitude x).scale hx.pos)
    (h : (magnitude x).Cell d.value) : ofDecimal d = x := by
  rw [of_decimal_eq (exponent_le_of_cell hx h), Magnitude.round_to_of_cell hx h, ← hparts,
    of_parts_parts]

end Number
end Trinomial
