import Trinomial.Proofs.Number.Numerals
import Trinomial.Proofs.Number.Unsigned

/-! # Displayed numbers

A number from `1e-4` up to below `1e16` is displayed as a numeral that is read back as it, bit for bit: its
shortest decimal lies in the same range, since it is rounded to the number and both ends of the range are
rounded to themselves. The shortest decimals of the other numbers lie outside.
-/
set_option autoImplicit false

namespace Trinomial

/-! ## The first digit of a decimal -/

namespace Decimal

/-- The first digit stands at the order of magnitude. -/
theorem leading_bounds {d : Decimal} (h : 0 < d.digits) :
    10 ^ d.leading ≤ d.value ∧ d.value < 10 ^ (d.leading + 1) := by
  have hpos : 0 < d.digitChars.length := Nat.length_toDigits_pos
  obtain ⟨k, hk⟩ : ∃ k, d.digitChars.length = k + 1 := ⟨d.digitChars.length - 1, by omega⟩
  have hlt : d.digits < 10 ^ (k + 1) :=
    (Nat.length_toDigits_le_iff (by decide) (by omega)).mp hk.le
  have hle : 10 ^ k ≤ d.digits := by
    rcases Nat.eq_zero_or_pos k with rfl | hk0
    · exact h
    · by_contra hsmall
      have hshort := (Nat.length_toDigits_le_iff (by decide) hk0).mpr (not_le.mp hsmall)
      change d.digitChars.length ≤ k at hshort
      omega
  have hten (n : ℕ) : (10 : ℚ) ^ (d.exponent + n) = 10 ^ n * 10 ^ d.exponent := by
    rw [zpow_add₀ (by norm_num), zpow_natCast, mul_comm]
  have hleading : d.leading = d.exponent + k ∧ d.leading + 1 = d.exponent + (k + 1 : ℕ) := by
    rw [leading, hk]
    omega
  rw [hleading.2, hleading.1, hten, hten, value]
  constructor
  · gcongr
    exact_mod_cast hle
  · gcongr
    exact_mod_cast hlt

end Decimal

namespace Number
open Float.Model Float.Model.UnpackedFloat

/-! ## The range -/

/-- In size from `1e-4` up to below `1e16`. -/
def Positional (x : Float) : Prop := 1e-4 ≤ x.abs ∧ x.abs < 1e16

instance (x : Float) : Decidable (Positional x) := inferInstanceAs (Decidable (_ ∧ _))

theorem denotes_top : Denotes 1e16 (10 ^ 16) :=
  ⟨by rfl, by
    have hparts : parts 1e16 = .finite .positive (5 ^ 16 * 2 ^ 15) 1 (by decide) := by rfl
    rw [value, hparts, value_of_positive]
    norm_num⟩

/-- The number that `1e-4` is rounded to is a little larger. -/
theorem denotes_bottom : Denotes 1e-4 (7378697629483821 * 2 ^ (-66 : ℤ)) :=
  ⟨by rfl, by
    have hparts : parts 1e-4 = .finite .positive 7378697629483821 (-66) (by decide) := by rfl
    rw [value, hparts, value_of_positive]
    norm_num⟩

/-- What lies below `1e-4` does not lie above the number before it. -/
theorem le_below_bottom {x : Float} (hx : x.isFinite = true) (h : x < 1e-4) :
    value x ≤ 7378697629483820 * 2 ^ (-66 : ℤ) := by
  have hbelow : Denotes 9.999999999999999e-5 (7378697629483820 * 2 ^ (-66 : ℤ)) :=
    ⟨by rfl, by
      have hparts : parts 9.999999999999999e-5 = .finite .positive 7378697629483820 (-66) (by decide) := by
        rfl
      rw [value, hparts, value_of_positive]
      norm_num⟩
  have hplace := (lt_iff_ordinal (is_nan_of_finite hx) rfl).mp h
  have hnext : ordinal 1e-4 = ordinal 9.999999999999999e-5 + 1 := by decide +kernel
  refine (Denotes.le_iff ⟨hx, rfl⟩ hbelow).mp ((le_iff_ordinal (is_nan_of_finite hx) rfl).mpr ?_)
  omega

namespace Positional
variable {x : Float} (h : Positional x)
include h

theorem finite : x.isFinite = true := finite_of_abs_lt h.2

theorem counts : isNegligible x = false := by
  have habs := (abs_finite h.finite).1
  have hbottom : (1e-4 : Float).isFinite = true := by rfl
  have htolerance : tolerance.isFinite = true := by rfl
  have hsmall : value tolerance < value 1e-4 := (lt_iff_value htolerance hbottom).mp (by decide)
  have hle := (le_iff_value hbottom habs).mp h.1
  rw [is_negligible_eq, decide_eq_false_iff_not, lt_iff_value habs htolerance]
  linarith

theorem neg : Positional (-x) := by
  rw [Positional, float_abs_neg]
  exact h

/-- In size the number itself, where it is not below zero. -/
theorem range (hneg : ¬x < 0.0) : 1e-4 ≤ x ∧ x < 1e16 := by
  have hrange := h
  rwa [Positional, abs_of_nonnegative h.finite (unsigned_of_counts hneg h.counts)] at hrange

theorem neg_range (hneg : x < 0.0) : 1e-4 ≤ -x ∧ -x < 1e16 :=
  h.neg.range fun hlt => not_lt_of_lt hneg (pos_of_neg_lt_zero hlt)

end Positional

/-! ## Shortest decimals and the range -/

section Sizes
variable {x : Float} (hx : x.isFinite = true) (hpos : 0 < value x)
include hx hpos

theorem parts_of_value_pos : ∃ hreg : (magnitude x).Regular,
    parts x = .finite .positive (magnitude x).significand (magnitude x).scale hreg.pos := by
  rcases finite_cases hx with ⟨hzero, -⟩ | ⟨hreg, hparts⟩
  · rw [value, hzero] at hpos
    exact absurd hpos (lt_irrefl 0)
  · rw [sign_of_nonnegative (unsigned_of_value_pos hx hpos)] at hparts
    exact ⟨hreg, hparts⟩

theorem shortest_bounds : 10 ^ (magnitude x).shortest.leading ≤ (magnitude x).shortest.value ∧
    (magnitude x).shortest.value < 10 ^ ((magnitude x).shortest.leading + 1) := by
  obtain ⟨hreg, -⟩ := parts_of_value_pos hx hpos
  exact Decimal.leading_bounds (digits_pos_of_cell hreg (Magnitude.shortest_cell hreg))

theorem nearest_of_shortest (hrange : (magnitude x).shortest.value < rangeTop) :
    IsNearest x (magnitude x).shortest.value := by
  obtain ⟨hreg, hparts⟩ := parts_of_value_pos hx hpos
  have hcell := Magnitude.shortest_cell hreg
  have hnearest := nearest_of_round (Magnitude.cell_pos hreg hcell) hrange
  rwa [Magnitude.round_to_of_cell hreg hcell, ← hparts, of_parts_parts] at hnearest

theorem shortest_nearest (hlt : value x < 10 ^ 16) : IsNearest x (magnitude x).shortest.value := by
  obtain ⟨hreg, hparts⟩ := parts_of_value_pos hx hpos
  have hvalue : value x = (magnitude x).significand * 2 ^ (magnitude x).scale := by
    rw [value, hparts, value_of_positive]
  have hsig : (1 : ℚ) ≤ (magnitude x).significand := by exact_mod_cast hreg.pos
  have hunit : (0 : ℚ) < 2 ^ (magnitude x).scale := by positivity
  have hle := (Magnitude.cell_bounds (Magnitude.shortest_cell hreg)).2.1
  rw [div_le_iff₀ hunit] at hle
  refine nearest_of_shortest hx hpos (lt_range_top (k := 60) ?_ (by norm_num))
  calc (magnitude x).shortest.value
      ≤ ((magnitude x).significand + 1 / 2) * 2 ^ (magnitude x).scale := hle
    _ ≤ 2 * ((magnitude x).significand * 2 ^ (magnitude x).scale) := by nlinarith
    _ < 2 * 10 ^ 16 := by linarith
    _ < 2 ^ (60 : ℤ) := by norm_num

theorem nearest_of_leading {k : ℤ} (hk : k ≤ 16) (h : (magnitude x).shortest.leading < k) :
    (magnitude x).shortest.value ≤ 10 ^ k ∧ IsNearest x (magnitude x).shortest.value := by
  have hlt := (shortest_bounds hx hpos).2
  have hpower : (10 : ℚ) ^ ((magnitude x).shortest.leading + 1) ≤ 10 ^ k :=
    zpow_le_zpow_right₀ (by norm_num) (by omega)
  have htop : (10 : ℚ) ^ k ≤ 10 ^ (16 : ℤ) := zpow_le_zpow_right₀ (by norm_num) hk
  refine ⟨hlt.le.trans hpower, nearest_of_shortest hx hpos (lt_range_top (k := 60) ?_ (by norm_num))⟩
  exact hlt.trans_le (hpower.trans (htop.trans (by norm_num)))

theorem le_leading_iff : -4 ≤ (magnitude x).shortest.leading ↔ 1e-4 ≤ x := by
  have hten : (10 : ℚ) ^ (-4 : ℤ) ≤ 7378697629483821 * 2 ^ (-66 : ℤ) := by norm_num
  constructor
  -- the middle between `1e-4` and the number before it lies below ten to the minus four
  · intro hle
    by_contra hlt
    rw [denotes_bottom.le_iff ⟨hx, rfl⟩, not_le] at hlt
    have hbelow := le_below_bottom hx ((Denotes.lt_iff ⟨hx, rfl⟩ denotes_bottom).mpr hlt)
    have hnearest := shortest_nearest hx hpos (hlt.trans (by norm_num))
    have hmiddle := hnearest.le_middle denotes_bottom hlt
    have hpower : (10 : ℚ) ^ (-4 : ℤ) ≤ 10 ^ (magnitude x).shortest.leading :=
      zpow_le_zpow_right₀ (by norm_num) hle
    have hlower := hpower.trans (shortest_bounds hx hpos).1
    norm_num at hlower hbelow hmiddle
    linarith
  -- a decimal of fewer places is rounded to the bottom at most, so the number is the bottom itself
  · intro hle
    by_contra hlt
    rw [not_le] at hlt
    obtain ⟨hupper, hnearest⟩ := nearest_of_leading hx hpos (by norm_num) hlt
    have hvalue := hnearest.le_of_le denotes_bottom (hupper.trans hten)
    have hbottom := (denotes_bottom.le_iff ⟨hx, rfl⟩).mp hle
    have heq : x = 1e-4 :=
      Denotes.eq ⟨hx, le_antisymm hvalue hbottom⟩ denotes_bottom (by positivity)
    have hleading : (magnitude 1e-4).shortest.leading = -4 := by decide +kernel
    rw [heq, hleading] at hlt
    exact lt_irrefl _ hlt

theorem leading_lt_iff : (magnitude x).shortest.leading < 16 ↔ x < 1e16 := by
  constructor
  -- a decimal of at most sixteen digits before the point is rounded to the top at most
  · intro hlt
    by_contra hge
    rw [Denotes.lt_iff ⟨hx, rfl⟩ denotes_top, not_lt] at hge
    obtain ⟨hupper, hnearest⟩ := nearest_of_leading hx hpos le_rfl hlt
    have hvalue := hnearest.le_of_le denotes_top hupper
    have heq : x = 1e16 := Denotes.eq ⟨hx, le_antisymm hvalue hge⟩ denotes_top (by positivity)
    have hleading : (magnitude 1e16).shortest.leading = 16 := by decide +kernel
    rw [heq, hleading] at hlt
    exact lt_irrefl _ hlt
  · intro hlt
    by_contra hge
    have htop := (Denotes.lt_iff ⟨hx, rfl⟩ denotes_top).mp hlt
    have hpower : (10 : ℚ) ^ 16 ≤ 10 ^ (magnitude x).shortest.leading := by
      rw [← zpow_natCast]
      exact zpow_le_zpow_right₀ (by norm_num) (by push_cast; omega)
    have hvalue := (shortest_nearest hx hpos htop).ge denotes_top
      (hpower.trans (shortest_bounds hx hpos).1)
    exact absurd hvalue (not_le.mpr htop)

/-- The range is the one in which numbers are laid out without an exponent. -/
theorem displayed_positional_iff :
    NumberStyle.displayed.positional (magnitude x).shortest.leading = true ↔ 1e-4 ≤ x ∧ x < 1e16 := by
  change (decide _ && decide _) = true ↔ _
  rw [Bool.and_eq_true, decide_eq_true_iff, decide_eq_true_iff, le_leading_iff hx hpos,
    leading_lt_iff hx hpos]

end Sizes

section Shortest
variable {x : Float} (hx : x.isFinite = true) (hlo : 1e-4 ≤ x) (hhi : x < 1e16)
include hx hlo

theorem value_pos_of_range : 0 < value x :=
  lt_of_lt_of_le (by positivity) ((denotes_bottom.le_iff ⟨hx, rfl⟩).mp hlo)

include hhi

theorem value_bounds : 7378697629483821 * 2 ^ (-66 : ℤ) ≤ value x ∧ value x < 10 ^ 16 :=
  ⟨(denotes_bottom.le_iff ⟨hx, rfl⟩).mp hlo, (Denotes.lt_iff ⟨hx, rfl⟩ denotes_top).mp hhi⟩

/-- A number of the range is displayed as a numeral, which is read back as the number. -/
theorem display_numeral :
    ∃ n : Numeral, displayText x = String.ofList n.chars ∧ ofSpelling n.chars = x := by
  have hpos := value_pos_of_range hx hlo
  obtain ⟨hreg, hparts⟩ := parts_of_value_pos hx hpos
  obtain ⟨n, hchars, hvalue⟩ := (magnitude x).shortest.positional_numeral true
  have hstyle := (displayed_positional_iff hx hpos).mpr ⟨hlo, hhi⟩
  refine ⟨n, ?_, ?_⟩
  · rw [displayText, chars_finite _ hx, unsigned_of_value_pos hx hpos, Decimal.chars, if_pos hstyle,
      hchars]
    rfl
  · rw [n.of_spelling]
    apply of_decimal_of_cell hreg hparts
    rw [hvalue]
    exact Magnitude.shortest_cell hreg

end Shortest

end Number
end Trinomial
