import Mathlib
import Trinomial.Number.Magnitude

/-! # Rounding to the nearest number

Every result of arithmetic is an exact rational, rounded once. `roundTo` says what that means without
any shifting of digits: the grid of the numbers of that size, the nearest point of the grid, the even
one of two. `round_with_accuracy_eq` says that the shifting of a significand, with the two bits that
remember what was shifted out, comes to the same.
-/
set_option autoImplicit false

namespace Trinomial.Number
open Float.Model Float.Model.UnpackedFloat

/-! ## The nearest integer -/

/-- The integer nearest to `x`, the even one of two. -/
def nearest (x : ℚ) : ℕ :=
  if x < ⌊x⌋₊ + 1 / 2 then ⌊x⌋₊
  else if ⌊x⌋₊ + 1 / 2 < x then ⌊x⌋₊ + 1
  else ⌊x⌋₊ + ⌊x⌋₊ % 2

theorem nearest_below {x : ℚ} {n : ℕ} (h : (n : ℚ) ≤ x) (h' : x < n + 1 / 2) : nearest x = n := by
  have hf : ⌊x⌋₊ = n := by
    rw [Nat.floor_eq_iff ((Nat.cast_nonneg n).trans h)]
    exact ⟨h, by linarith⟩
  rw [nearest, hf, if_pos h']

theorem nearest_above {x : ℚ} {n : ℕ} (h : (n : ℚ) + 1 / 2 < x) (h' : x < n + 1) :
    nearest x = n + 1 := by
  have hx : (n : ℚ) ≤ x := by linarith
  have hf : ⌊x⌋₊ = n := by
    rw [Nat.floor_eq_iff ((Nat.cast_nonneg n).trans hx)]
    exact ⟨hx, h'⟩
  rw [nearest, hf, if_neg (by linarith), if_pos h]

theorem nearest_half (n : ℕ) : nearest ((n : ℚ) + 1 / 2) = n + n % 2 := by
  have hf : ⌊(n : ℚ) + 1 / 2⌋₊ = n := by
    rw [Nat.floor_eq_iff (by positivity)]
    constructor <;> linarith
  rw [nearest, hf, if_neg (lt_irrefl _), if_neg (lt_irrefl _)]

/-- The points of the closed interval around an even integer, and of the open one around any. -/
theorem nearest_eq {x : ℚ} {n : ℕ} (hx : 0 ≤ x) (hlo : (n : ℚ) - 1 / 2 ≤ x) (hhi : x ≤ n + 1 / 2)
    (hn : n % 2 = 0 ∨ ((n : ℚ) - 1 / 2 < x ∧ x < n + 1 / 2)) : nearest x = n := by
  rcases le_or_gt (n : ℚ) x with h | h
  · rcases hhi.lt_or_eq with h' | rfl
    · exact nearest_below h h'
    · rcases hn with hn | hn
      · rw [nearest_half, hn, Nat.add_zero]
      · exact absurd hn.2 (lt_irrefl _)
  · obtain ⟨m, rfl⟩ : ∃ m, n = m + 1 := by
      refine ⟨n - 1, ?_⟩
      have hn0 : n ≠ 0 := by
        rintro rfl
        rw [Nat.cast_zero] at h
        linarith
      omega
    push_cast at hlo h hn
    rcases hlo.lt_or_eq with h' | h'
    · exact nearest_above (by linarith) h
    · have hx : x = m + 1 / 2 := by linarith
      rcases hn with hn | hn
      · rw [hx, nearest_half]
        omega
      · linarith [hn.1]

/-! ## Significands with residual bits -/

/-- The significand stands for `x`: it is the integral part of `x`, the round bit tells whether `x`
reaches the half above it, and the sticky bit whether `x` is off the integers and halves. -/
structure Stands (em : ExtendedMantissa) (x : ℚ) : Prop where
  le : (em.mantissa : ℚ) ≤ x
  lt : x < em.mantissa + 1
  round_iff : em.roundBit = true ↔ (em.mantissa : ℚ) + 1 / 2 ≤ x
  sticky_iff : em.stickyBit = true ↔ x ≠ em.mantissa ∧ x ≠ em.mantissa + 1 / 2

variable {em : ExtendedMantissa} {x : ℚ}

theorem Stands.nearest_eq (h : Stands em x) : nearest x = em.roundedMantissa := by
  obtain ⟨m, round, sticky⟩ := em
  obtain ⟨hle, hlt, hr, hs⟩ := h
  dsimp only at hle hlt hr hs
  cases round with
  | false =>
    have hx : x < m + 1 / 2 := not_le.mp fun hh => Bool.noConfusion (hr.mpr hh)
    rw [nearest_below hle hx]
    cases sticky <;> rfl
  | true =>
    have hx := hr.mp rfl
    cases sticky with
    | false =>
      have heq : x = m + 1 / 2 := by
        by_contra hne
        exact Bool.noConfusion (hs.mpr ⟨by linarith, hne⟩)
      rw [heq, nearest_half]
      rfl
    | true => exact nearest_above (lt_of_le_of_ne hx (hs.mp rfl).2.symm) hlt

theorem Stands.residue_iff (h : Stands em x) :
    (em.roundBit || em.stickyBit) = true ↔ x ≠ em.mantissa := by
  rw [Bool.or_eq_true, h.round_iff, h.sticky_iff]
  constructor
  · rintro (hx | hx)
    · linarith
    · exact hx.1
  · intro hx
    by_cases hh : x = em.mantissa + 1 / 2
    · exact .inl hh.ge
    · exact .inr ⟨hx, hh⟩

/-- One step halves the number; the digit that is shifted out becomes the round bit. -/
theorem Stands.shift_one (h : Stands em x) : Stands em.shiftRightOne (x / 2) := by
  have hm : (em.mantissa : ℚ) = 2 * (em.mantissa / 2 : ℕ) + (em.mantissa % 2 : ℕ) := by
    exact_mod_cast (Nat.div_add_mod em.mantissa 2).symm
  have hle := h.le
  have hlt := h.lt
  have hres := h.residue_iff
  rw [hm] at hle hlt hres
  rcases Nat.mod_two_eq_zero_or_one em.mantissa with hd | hd <;> rw [hd] at hle hlt hres <;>
    push_cast at hle hlt hres
  · refine ⟨?_, ?_, ?_, ?_⟩ <;> simp only [ExtendedMantissa.shiftRightOne, hd]
    · linarith
    · linarith
    · exact ⟨nofun, fun hh => by linarith⟩
    · rw [hres]
      exact ⟨fun hx => ⟨fun hh => hx (by linarith), by linarith⟩, fun hx hh => hx.1 (by linarith)⟩
  · refine ⟨?_, ?_, ?_, ?_⟩ <;> simp only [ExtendedMantissa.shiftRightOne, hd]
    · linarith
    · linarith
    · exact ⟨fun _ => by linarith, fun _ => rfl⟩
    · rw [hres]
      exact ⟨fun hx => ⟨by linarith, fun hh => hx (by linarith)⟩, fun hx hh => hx.2 (by linarith)⟩

theorem Stands.shift (h : Stands em x) (n : ℕ) : Stands (em >>> n) (x / 2 ^ n) := by
  change Stands (n.repeat ExtendedMantissa.shiftRightOne em) _
  induction n with
  | zero => simpa [Nat.repeat] using h
  | succ n ih =>
    have hs := ih.shift_one
    rwa [div_div, ← pow_succ] at hs

/-! ## The grid of the numbers of one size -/

/-- The exponent of the unit in the last place, at the size of `q`. -/
def grid (q : ℚ) : ℤ := max (Int.log 2 q - 52) (-1074)

theorem min_le_grid (q : ℚ) : -1074 ≤ grid q := le_max_right _ _

theorem lt_two_zpow_grid (q : ℚ) : q / 2 ^ grid q < 2 ^ 53 := by
  rw [div_lt_iff₀ (by positivity)]
  have hlog : Int.log 2 q + 1 ≤ 53 + grid q := by
    have := le_max_left (Int.log 2 q - 52) (-1074)
    rw [grid]
    omega
  calc q < (2 : ℕ) ^ (Int.log 2 q + 1) := Int.lt_zpow_succ_log_self (by decide) q
    _ ≤ 2 ^ (53 + grid q) := by
      rw [Nat.cast_ofNat]
      exact zpow_le_zpow_right₀ (by norm_num) hlog
    _ = 2 ^ 53 * 2 ^ grid q := by rw [zpow_add₀ (by norm_num)]; norm_num

theorem log_lt_of_lt {q : ℚ} {k : ℤ} (hq : 0 < q) (h : q < 2 ^ k) : Int.log 2 q < k := by
  rwa [← Int.lt_zpow_iff_log_lt (by decide) hq, Nat.cast_ofNat]

theorem log_eq_of_bounds {q : ℚ} {k : ℤ} (hlo : (2 : ℚ) ^ k ≤ q) (hhi : q < 2 ^ (k + 1)) :
    Int.log 2 q = k := by
  have hq : 0 < q := lt_of_lt_of_le (by positivity) hlo
  apply le_antisymm
  · have := log_lt_of_lt hq hhi
    omega
  · rwa [← Int.zpow_le_iff_le_log (by decide) hq, Nat.cast_ofNat]

theorem log_eq {m : ℕ} {e : ℤ} {q : ℚ} (hm : m ≠ 0) (hlo : (m : ℚ) ≤ q / 2 ^ e)
    (hhi : q / 2 ^ e < m + 1) : Int.log 2 q = m.log2 + e := by
  have he : (0 : ℚ) < 2 ^ e := by positivity
  rw [le_div_iff₀ he] at hlo
  rw [div_lt_iff₀ he] at hhi
  apply log_eq_of_bounds
  · have h : (2 : ℚ) ^ m.log2 ≤ m := by exact_mod_cast Nat.log2_self_le hm
    calc (2 : ℚ) ^ (m.log2 + e : ℤ) = 2 ^ m.log2 * 2 ^ e := by
          rw [zpow_add₀ (by norm_num), zpow_natCast]
      _ ≤ m * 2 ^ e := mul_le_mul_of_nonneg_right h he.le
      _ ≤ q := hlo
  · have h : (m : ℚ) + 1 ≤ 2 ^ (m.log2 + 1) := by exact_mod_cast Nat.lt_log2_self
    calc q < (m + 1) * 2 ^ e := hhi
      _ ≤ 2 ^ (m.log2 + 1) * 2 ^ e := mul_le_mul_of_nonneg_right h he.le
      _ = 2 ^ (m.log2 + e + 1 : ℤ) := by
        rw [← zpow_natCast, ← zpow_add₀ (by norm_num)]
        congr 1
        push_cast
        ring

theorem target_exponent_eq_max (m : ℕ) (e : ℤ) :
    Format.binary64.targetExponent (totalExponent m e) = max (m.log2 + e - 52) (-1074) := by
  have h : Format.binary64.minExponent = -1074 := by decide
  have h' : Format.binary64.mantissaBits = 53 := by decide
  rw [Format.targetExponent, totalExponent, h, h']
  congr 1
  push_cast
  ring

theorem target_exponent_eq_grid {m : ℕ} {e : ℤ} {q : ℚ} (hq : 0 < q) (hlo : (m : ℚ) ≤ q / 2 ^ e)
    (hhi : q / 2 ^ e < m + 1) (he : e ≤ grid q) :
    Format.binary64.targetExponent (totalExponent m e) = grid q := by
  rw [target_exponent_eq_max]
  by_cases hm : m = 0
  · have hlog : Int.log 2 q < e := by
      rw [← Int.lt_zpow_iff_log_lt (by decide) hq, Nat.cast_ofNat]
      rwa [hm, Nat.cast_zero, zero_add, div_lt_one (by positivity)] at hhi
    rw [hm, Nat.log2_zero]
    rw [grid] at he ⊢
    omega
  · rw [grid, log_eq hm hlo hhi]

/-! ## Rounding -/

/-- The number of the given sign nearest to `q`. -/
def roundTo (s : Sign) (q : ℚ) : UnpackedFloat :=
  if h : nearest (q / 2 ^ grid q) = 0 then .zero s
  else if nearest (q / 2 ^ grid q) < 2 ^ 53 then
    .finite s (nearest (q / 2 ^ grid q)) (grid q) (Nat.pos_of_ne_zero h)
  else .finite s (2 ^ 52) (grid q + 1) (by decide)

theorem shift_to_exponent_eq {m : ℕ} {e t : ℤ} {a : Accuracy} {q : ℚ}
    (h : Stands (.ofMantissaAndAccuracy m a) (q / 2 ^ e)) (ht : e ≤ t) :
    (shiftToExponent m e a t).2 = t ∧ Stands (shiftToExponent m e a t).1 (q / 2 ^ t) := by
  obtain ⟨n, rfl⟩ := Int.le.dest ht
  have hn : (e + n - e).toNat = n := by omega
  rw [zpow_add₀ (by norm_num), zpow_natCast, ← div_div, shiftToExponent, hn]
  exact ⟨rfl, h.shift n⟩

/-- A rounded significand that has outgrown its digits is halved once. -/
theorem shift_to_target_of_le {r : ℕ} {t : ℤ} (hr : r ≤ 2 ^ 53) (ht : -1074 ≤ t) :
    shiftToTargetExponent Format.binary64 r t .exact =
      if r < 2 ^ 53 then (⟨r, false, false⟩, t) else (⟨2 ^ 52, false, false⟩, t + 1) := by
  rw [shiftToTargetExponent, target_exponent_eq_max]
  split_ifs with h
  · have hlog : r.log2 < 53 := by
      by_cases h0 : r = 0
      · rw [h0, Nat.log2_zero]
        decide
      · exact (Nat.log2_lt h0).mpr h
    have hn : (max ((r.log2 : ℤ) + t - 52) (-1074) - t).toNat = 0 := by omega
    rw [shiftToExponent, hn]
    exact Prod.ext rfl (add_zero t)
  · obtain rfl : r = 2 ^ 53 := by omega
    have hn : (max (((2 ^ 53).log2 : ℤ) + t - 52) (-1074) - t).toNat = 1 := by
      rw [Nat.log2_two_pow]
      omega
    rw [shiftToExponent, hn]
    rfl

/-- Shifting and rounding a significand rounds the rational it stands for. -/
theorem round_with_accuracy_eq {m : ℕ} {e : ℤ} {a : Accuracy} {q : ℚ} (s : Sign) (hq : 0 < q)
    (h : Stands (.ofMantissaAndAccuracy m a) (q / 2 ^ e)) (he : e ≤ grid q) :
    roundWithAccuracy Format.binary64 s m e a = roundTo s q := by
  have hm : (ExtendedMantissa.ofMantissaAndAccuracy m a).mantissa = m := by
    rcases a with _ | (_ | _ | _) <;> rfl
  have htarget := target_exponent_eq_grid hq (hm ▸ h.le) (hm ▸ h.lt) he
  obtain ⟨hexp, hstands⟩ := shift_to_exponent_eq h he
  have hr : nearest (q / 2 ^ grid q) ≤ 2 ^ 53 := by
    have hlt := lt_two_zpow_grid q
    have hfloor : ⌊q / 2 ^ grid q⌋₊ < 2 ^ 53 := by
      rw [Nat.floor_lt (by positivity)]
      exact_mod_cast hlt
    unfold nearest
    split_ifs <;> omega
  have hfirst : shiftToTargetExponent Format.binary64 m e a =
      ((shiftToExponent m e a (grid q)).1, grid q) := by
    rw [shiftToTargetExponent, htarget]
    exact Prod.ext rfl hexp
  rw [roundWithAccuracy, hfirst]
  dsimp only
  rw [← hstands.nearest_eq, shift_to_target_of_le hr (min_le_grid q), roundTo]
  by_cases hlt : nearest (q / 2 ^ grid q) < 2 ^ 53
  · simp only [hlt, if_true]
  · have h0 : nearest (q / 2 ^ grid q) ≠ 0 := fun hh => hlt (by rw [hh]; decide)
    simp only [hlt, h0, if_false, dite_false]
    rfl

theorem round_to_eq {s : Sign} {q : ℚ} {n : ℕ} {t : ℤ} (hn : 0 < n) (hlt : n < 2 ^ 53)
    (hg : grid q = t) (hr : nearest (q / 2 ^ t) = n) : roundTo s q = .finite s n t hn := by
  subst hg
  subst hr
  rw [roundTo, dif_neg hn.ne', if_pos hlt]

theorem round_to_carry {s : Sign} {q : ℚ} {t : ℤ} (hg : grid q + 1 = t)
    (hr : nearest (q / 2 ^ grid q) = 2 ^ 53) : roundTo s q = .finite s (2 ^ 52) t (by decide) := by
  subst hg
  rw [roundTo, dif_neg (by rw [hr]; decide), if_neg (by rw [hr]; decide)]

end Trinomial.Number

/-! ## Rounding cells -/

namespace Trinomial.Magnitude
open Trinomial.Number Float.Model.UnpackedFloat

def value (x : Magnitude) : ℚ := x.significand * 2 ^ x.scale

/-- The magnitudes of the numbers that are finite and not zero. -/
structure Regular (x : Magnitude) : Prop where
  pos : 0 < x.significand
  lt : x.significand < 2 ^ 53
  min_le : -1074 ≤ x.scale
  le_max : x.scale ≤ 971
  normal : 2 ^ 52 ≤ x.significand ∨ x.scale = -1074
  narrow_iff : x.narrowBelow = true ↔ x.significand = 2 ^ 52 ∧ -1074 < x.scale

/-- The rationals that round to `x`: half a unit above and half a unit below, a quarter where the
grid is finer below. The ends belong to an even significand. -/
def Cell (x : Magnitude) (q : ℚ) : Prop :=
  if x.significand % 2 = 0 then
    (x.significand - if x.narrowBelow then 1 / 4 else 1 / 2 : ℚ) ≤ q / 2 ^ x.scale ∧
      q / 2 ^ x.scale ≤ x.significand + 1 / 2
  else
    (x.significand - if x.narrowBelow then 1 / 4 else 1 / 2 : ℚ) < q / 2 ^ x.scale ∧
      q / 2 ^ x.scale < x.significand + 1 / 2

theorem cell_bounds {x : Magnitude} {q : ℚ} (h : x.Cell q) :
    (x.significand : ℚ) - 1 / 2 ≤ q / 2 ^ x.scale ∧ q / 2 ^ x.scale ≤ x.significand + 1 / 2 ∧
      (x.significand % 2 = 0 ∨
        ((x.significand : ℚ) - 1 / 2 < q / 2 ^ x.scale ∧ q / 2 ^ x.scale < x.significand + 1 / 2)) := by
  unfold Cell at h
  split_ifs at h with heven hnarrow
  · exact ⟨by linarith, h.2, .inl heven⟩
  · exact ⟨h.1, h.2, .inl heven⟩
  · exact ⟨by linarith, h.2.le, .inr ⟨by linarith, h.2⟩⟩
  · exact ⟨h.1.le, h.2.le, .inr h⟩

/-- A number lies in its own cell. -/
theorem cell_value (x : Magnitude) : x.Cell x.value := by
  have h : x.value / 2 ^ x.scale = x.significand := by
    rw [value, mul_div_cancel_right₀ _ (by positivity)]
  rw [Cell, h]
  split_ifs <;> constructor <;> linarith

section Cell
variable {x : Magnitude} {q : ℚ} (hx : x.Regular) (h : x.Cell q)
include hx h

theorem cell_pos : 0 < q := by
  have hscale : (0 : ℚ) < 2 ^ x.scale := by positivity
  have hpos : (1 : ℚ) ≤ x.significand := by exact_mod_cast hx.pos
  have hlo := (cell_bounds h).1
  have hdiv : 0 < q / 2 ^ x.scale := by linarith
  rwa [div_pos_iff_of_pos_right hscale] at hdiv

theorem nearest_of_cell : nearest (q / 2 ^ x.scale) = x.significand := by
  obtain ⟨hlo, hhi, hn⟩ := cell_bounds h
  have hq := cell_pos hx h
  exact nearest_eq (by positivity) hlo hhi hn

theorem log_lt_of_cell : Int.log 2 q < x.scale + 53 := by
  have hhi := (cell_bounds h).2.1
  have hlt : (x.significand : ℚ) + 1 ≤ 2 ^ 53 := by exact_mod_cast hx.lt
  have hbig : q / 2 ^ x.scale < 2 ^ 53 := by linarith
  apply log_lt_of_lt (cell_pos hx h)
  rw [div_lt_iff₀ (by positivity)] at hbig
  rw [zpow_add₀ (by norm_num), mul_comm]
  exact_mod_cast hbig

/-- Just below a power of two the grid is finer, and rounding carries over to the power. -/
theorem round_to_of_cell_below (hsub : x.scale ≠ -1074) (hlt : q / 2 ^ x.scale < 2 ^ 52) (s : Sign) :
    roundTo s q = .finite s x.significand x.scale hx.pos := by
  obtain ⟨hlo, -, -⟩ := cell_bounds h
  have hmin := hx.min_le
  have hsig : x.significand = 2 ^ 52 := by
    have h52 := hx.normal.resolve_right hsub
    have : (x.significand : ℚ) < 2 ^ 52 + 1 := by linarith
    have : x.significand < 2 ^ 52 + 1 := by exact_mod_cast this
    omega
  have hnarrow : x.narrowBelow = true := hx.narrow_iff.mpr ⟨hsig, by omega⟩
  have hlow : (2 ^ 52 - 1 / 4 : ℚ) ≤ q / 2 ^ x.scale := by
    rw [Cell, hsig, hnarrow, if_pos (by decide)] at h
    exact_mod_cast h.1
  have hgrid : grid q = x.scale - 1 := by
    have hscale : (0 : ℚ) < 2 ^ x.scale := by positivity
    have hlog : Int.log 2 q = x.scale + 51 := by
      apply log_eq_of_bounds
      · have : (2 ^ 51 : ℚ) ≤ q / 2 ^ x.scale := by linarith
        rw [le_div_iff₀ hscale] at this
        rw [zpow_add₀ (by norm_num), mul_comm]
        exact_mod_cast this
      · rw [div_lt_iff₀ hscale] at hlt
        rw [add_assoc, zpow_add₀ (by norm_num), mul_comm]
        exact_mod_cast hlt
    rw [grid]
    omega
  have hcarry : nearest (q / 2 ^ grid q) = 2 ^ 53 := by
    have hhalf : q / 2 ^ (x.scale - 1) = 2 * (q / 2 ^ x.scale) := by
      rw [zpow_sub_one₀ (by norm_num)]
      field_simp
    rw [hgrid, hhalf]
    refine nearest_eq (by linarith) ?_ ?_ (.inl (by decide)) <;> push_cast <;> linarith
  have hnext : grid q + 1 = x.scale := by omega
  rw [round_to_carry hnext hcarry]
  congr 1
  exact hsig.symm

/-- Whatever lies in the cell of a number is rounded to it. -/
theorem round_to_of_cell (s : Sign) : roundTo s q = .finite s x.significand x.scale hx.pos := by
  have hq := cell_pos hx h
  have hnear := nearest_of_cell hx h
  have hlog := log_lt_of_cell hx h
  by_cases hsub : x.scale = -1074
  · refine round_to_eq hx.pos hx.lt ?_ hnear
    rw [grid]
    omega
  rcases le_or_gt (2 ^ 52 : ℚ) (q / 2 ^ x.scale) with hbin | hbin
  · have hlog' : x.scale + 52 ≤ Int.log 2 q := by
      rw [← Int.zpow_le_iff_le_log (by decide) hq, Nat.cast_ofNat, zpow_add₀ (by norm_num), mul_comm]
      rw [le_div_iff₀ (by positivity)] at hbin
      exact_mod_cast hbin
    have hmin := hx.min_le
    refine round_to_eq hx.pos hx.lt ?_ hnear
    rw [grid]
    omega
  · exact round_to_of_cell_below hx h hsub hbin s

end Cell

end Trinomial.Magnitude
