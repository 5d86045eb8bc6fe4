import Trinomial.Proofs.Number.Parts
import Trinomial.Solution.Formulas

/-! # Arithmetic of numbers

Products and quotients of finite numbers are exact rationals, rounded once. From that come the identities
that reading relies on, with one and its negative. The last part is about the sign of zero: which
computations give the same result for `0.0` and `-0.0`.
-/
set_option autoImplicit false

namespace Trinomial.Number
open Float.Model Float.Model.UnpackedFloat

/-! ## Products and quotients -/

theorem stands_of_residue {k : ℕ} {f : ℚ} {round sticky : Bool} (h0 : 0 ≤ f) (h1 : f < 1)
    (hr : round = true ↔ 1 / 2 ≤ f) (hs : sticky = true ↔ f ≠ 0 ∧ f ≠ 1 / 2) :
    Stands ⟨k, round, sticky⟩ (k + f) := by
  refine ⟨?_, ?_, ?_, ?_⟩ <;> dsimp only
  · linarith
  · linarith
  · rw [hr, add_le_add_iff_left]
  · rw [hs]
    simp only [ne_eq, add_eq_left, add_right_inj]

theorem stands_exact (m : ℕ) : Stands (.ofMantissaAndAccuracy m .exact) m := by
  have h : Stands ⟨m, false, false⟩ ((m : ℚ) + 0) :=
    stands_of_residue (le_refl _) (by norm_num) (by norm_num) (by norm_num)
  rwa [add_zero] at h

/-- The integral quotient and the size of the remainder stand for the exact quotient. -/
theorem stands_quotient (n : ℕ) {d : ℕ} (hd : 0 < d) :
    Stands (.ofMantissaAndAccuracy (n / d) (accuracyOfFraction (n % d) d)) ((n : ℚ) / d) := by
  have hd' : (0 : ℚ) < d := by exact_mod_cast hd
  have hn : (n : ℚ) = d * (n / d : ℕ) + (n % d : ℕ) := by exact_mod_cast (Nat.div_add_mod n d).symm
  have hr : n % d < d := Nat.mod_lt n hd
  generalize n / d = k at hn ⊢
  generalize n % d = r at hn hr ⊢
  have hq : (n : ℚ) / d = k + r / d := by
    rw [hn]
    field_simp
  have hnonneg : (0 : ℚ) ≤ r / d := by positivity
  have hlt : (r : ℚ) / d < 1 := by
    rw [div_lt_one hd']
    exact_mod_cast hr
  have hhalf : (1 / 2 : ℚ) ≤ r / d ↔ d ≤ 2 * r := by
    rw [div_le_div_iff₀ (by norm_num) hd', one_mul, mul_comm (r : ℚ)]
    exact_mod_cast Iff.rfl
  have heq : (r : ℚ) / d = 1 / 2 ↔ 2 * r = d := by
    rw [div_eq_div_iff hd'.ne' (by norm_num), one_mul, mul_comm (r : ℚ)]
    exact_mod_cast Iff.rfl
  have hzero : (r : ℚ) / d = 0 ↔ r = 0 := by
    rw [div_eq_zero_iff, Nat.cast_eq_zero, Nat.cast_eq_zero]
    omega
  rw [hq]
  by_cases h0 : r = 0
  · rw [accuracyOfFraction, if_pos h0]
    refine stands_of_residue hnonneg hlt ?_ ?_
    · rw [hhalf]
      exact ⟨nofun, fun h => by omega⟩
    · rw [Ne, Ne, hzero]
      exact ⟨nofun, fun h => absurd h0 h.1⟩
  · rw [accuracyOfFraction, if_neg h0]
    rcases hc : compare (2 * r) d with _ | _ | _
    · have hc := Nat.compare_eq_lt.mp hc
      refine stands_of_residue hnonneg hlt ?_ ?_
      · rw [hhalf]
        exact ⟨nofun, fun h => by omega⟩
      · rw [Ne, Ne, hzero, heq]
        exact ⟨fun _ => by omega, fun _ => rfl⟩
    · have hc := Nat.compare_eq_eq.mp hc
      refine stands_of_residue hnonneg hlt ?_ ?_
      · rw [hhalf]
        exact ⟨fun _ => by omega, fun _ => rfl⟩
      · rw [Ne, Ne, heq]
        exact ⟨nofun, fun h => absurd hc h.2⟩
    · have hc := Nat.compare_eq_gt.mp hc
      refine stands_of_residue hnonneg hlt ?_ ?_
      · rw [hhalf]
        exact ⟨fun _ => by omega, fun _ => rfl⟩
      · rw [Ne, Ne, hzero, heq]
        exact ⟨fun _ => by omega, fun _ => rfl⟩

theorem le_grid {m : ℕ} {e : ℤ} (hm : 0 < m) (h : 2 ^ 52 ≤ m ∨ e ≤ -1074) :
    e ≤ grid (m * 2 ^ e) := by
  rcases h with h | h
  · have hlog : Int.log 2 ((m : ℚ) * 2 ^ e) = m.log2 + e := by
      apply log_eq hm.ne' <;> rw [mul_div_cancel_right₀ _ (by positivity)]
      linarith
    have h52 := (Nat.le_log2 hm.ne').mpr h
    have := le_max_left (Int.log 2 ((m : ℚ) * 2 ^ e) - 52) (-1074)
    rw [grid]
    omega
  · exact h.trans (min_le_grid _)

theorem round_exact {m : ℕ} {e : ℤ} (s : Sign) (hm : 0 < m) (h : 2 ^ 52 ≤ m ∨ e ≤ -1074) :
    roundWithAccuracy Format.binary64 s m e .exact = roundTo s (m * 2 ^ e) := by
  apply round_with_accuracy_eq s (by positivity)
  · rw [mul_div_cancel_right₀ _ (by positivity)]
    exact stands_exact m
  · exact le_grid hm h

theorem mul_finite {s₁ s₂ : Sign} {m₁ m₂ : ℕ} {e₁ e₂ : ℤ} (h₁ : 0 < m₁) (h₂ : 0 < m₂)
    (h : 2 ^ 52 ≤ m₁ * m₂ ∨ e₁ + e₂ ≤ -1074) :
    UnpackedFloat.mul Format.binary64 (.finite s₁ m₁ e₁ h₁) (.finite s₂ m₂ e₂ h₂) =
      roundTo (s₁ * s₂) (m₁ * 2 ^ e₁ * (m₂ * 2 ^ e₂)) := by
  rw [UnpackedFloat.mul, round_exact _ (Nat.mul_pos h₁ h₂) h, zpow_add₀ (by norm_num)]
  congr 1
  push_cast
  ring

theorem log_quotient {m₁ m₂ : ℕ} (e₁ e₂ : ℤ) (h₁ : 0 < m₁) (h₂ : 0 < m₂) :
    (m₁.log2 + e₁) - (m₂.log2 + e₂) - 1 ≤ Int.log 2 ((m₁ : ℚ) * 2 ^ e₁ / (m₂ * 2 ^ e₂)) := by
  rw [← Int.zpow_le_iff_le_log (by decide) (by positivity), Nat.cast_ofNat,
    le_div_iff₀ (by positivity)]
  have hlo : (2 : ℚ) ^ m₁.log2 ≤ m₁ := by exact_mod_cast Nat.log2_self_le h₁.ne'
  have hhi : (m₂ : ℚ) ≤ 2 ^ (m₂.log2 + 1) := by exact_mod_cast Nat.lt_log2_self.le
  calc (2 : ℚ) ^ ((m₁.log2 + e₁) - (m₂.log2 + e₂) - 1 : ℤ) * (m₂ * 2 ^ e₂)
      ≤ 2 ^ ((m₁.log2 + e₁) - (m₂.log2 + e₂) - 1 : ℤ) * (2 ^ (m₂.log2 + 1) * 2 ^ e₂) := by gcongr
    _ = 2 ^ (m₁.log2 + e₁ : ℤ) := by
      rw [← zpow_natCast, ← zpow_add₀ (by norm_num), ← zpow_add₀ (by norm_num)]
      congr 1
      push_cast
      ring
    _ = 2 ^ m₁.log2 * 2 ^ e₁ := by rw [zpow_add₀ (by norm_num), zpow_natCast]
    _ ≤ m₁ * 2 ^ e₁ := by gcongr

theorem div_finite {s₁ s₂ : Sign} {m₁ m₂ : ℕ} {e₁ e₂ : ℤ} (h₁ : 0 < m₁) (h₂ : 0 < m₂) :
    UnpackedFloat.div Format.binary64 (.finite s₁ m₁ e₁ h₁) (.finite s₂ m₂ e₂ h₂) =
      roundTo (s₁ / s₂) (m₁ * 2 ^ e₁ / (m₂ * 2 ^ e₂)) := by
  rw [UnpackedFloat.div, divCore]
  dsimp only
  generalize ht : min (e₁ - e₂) (Format.binary64.targetExponent
    (totalExponent m₁ e₁ - totalExponent m₂ e₂)) = t
  apply round_with_accuracy_eq _ (by positivity)
  · have hshift : (e₁ : ℤ) = (e₁ - e₂ - t).toNat + e₂ + t := by omega
    have hq : (m₁ : ℚ) * 2 ^ e₁ / (m₂ * 2 ^ e₂) / 2 ^ t =
        (m₁ <<< (e₁ - e₂ - t).toNat : ℕ) / (m₂ : ℚ) := by
      rw [Nat.shiftLeft_eq, div_div, div_eq_div_iff (by positivity) (by positivity)]
      conv_lhs => rw [hshift, zpow_add₀ (by norm_num), zpow_add₀ (by norm_num), zpow_natCast]
      push_cast
      ring
    rw [hq]
    exact stands_quotient _ h₂
  · have hlog := log_quotient e₁ e₂ h₁ h₂
    have htarget : Format.binary64.targetExponent (totalExponent m₁ e₁ - totalExponent m₂ e₂) =
        max ((m₁.log2 + e₁) - (m₂.log2 + e₂) - 53) (-1074) := by
      rw [Format.targetExponent, totalExponent, totalExponent]
      congr 1
      change _ - ((53 : ℕ) : ℤ) = _
      push_cast
      ring
    rw [htarget] at ht
    rw [grid]
    omega

/-! ## One and its negative -/

/-- What is on the grid already is not changed by rounding. -/
theorem round_to_fits {s : Sign} {m : ℕ} {e : ℤ} {hm : 0 < m} (h : Fits (.finite s m e hm))
    (s' : Sign) : roundTo s' (m * 2 ^ e) = .finite s' m e hm := by
  obtain ⟨hlt, hmin, hmax, hnormal⟩ := h
  have hreg : Magnitude.Regular ⟨m, e, decide (m = 2 ^ 52 ∧ -1074 < e)⟩ :=
    ⟨hm, hlt, hmin, hmax, hnormal, decide_eq_true_iff⟩
  exact Magnitude.round_to_of_cell hreg (Magnitude.cell_value _) s'

theorem parts_one : parts 1.0 = .finite .positive (2 ^ 52) (-52) (by decide) := by rfl

theorem parts_neg_one : parts (-1.0) = .finite .negative (2 ^ 52) (-52) (by decide) := by rfl

theorem one_value : ((2 ^ 52 : ℕ) : ℚ) * 2 ^ (-52 : ℤ) = 1 := by norm_num

section Unit
variable {u : UnpackedFloat}

theorem mul_unit (h : Fits u) (s : Sign) :
    UnpackedFloat.mul Format.binary64 u (.finite s (2 ^ 52) (-52) (by decide)) =
      if s == .positive then u else u.neg := by
  cases u with
  | notANumber => cases s <;> rfl
  | infinity s' => cases s <;> cases s' <;> rfl
  | zero s' => cases s <;> cases s' <;> rfl
  | finite s' m e hm =>
    rw [mul_finite hm (by decide) (.inl (Nat.le_mul_of_pos_left _ hm)), one_value, mul_one,
      round_to_fits h]
    cases s <;> cases s' <;> rfl

theorem unit_mul (h : Fits u) :
    UnpackedFloat.mul Format.binary64 (.finite .positive (2 ^ 52) (-52) (by decide)) u = u := by
  cases u with
  | notANumber => rfl
  | infinity s => cases s <;> rfl
  | zero s => cases s <;> rfl
  | finite s m e hm =>
    rw [mul_finite (by decide) hm (.inl (Nat.le_mul_of_pos_right _ hm)), one_value, one_mul,
      round_to_fits h]
    cases s <;> rfl

theorem div_unit (h : Fits u) :
    UnpackedFloat.div Format.binary64 u (.finite .positive (2 ^ 52) (-52) (by decide)) = u := by
  cases u with
  | notANumber => rfl
  | infinity s => cases s <;> rfl
  | zero s => cases s <;> rfl
  | finite s m e hm =>
    rw [div_finite hm (by decide), one_value, div_one, round_to_fits h]
    cases s <;> rfl

end Unit

section Identities
variable (x : Float)

theorem float_mul_one : x * 1.0 = x := by
  rw [mul_eq, parts_one, mul_unit (parts_fits x)]
  exact of_parts_parts x

theorem float_mul_neg_one : x * -1.0 = -x := by
  rw [mul_eq, parts_neg_one, mul_unit (parts_fits x)]
  rfl

theorem float_one_mul : 1.0 * x = x := by
  rw [mul_eq, parts_one, unit_mul (parts_fits x), of_parts_parts]

theorem float_div_one : x / 1.0 = x := by
  rw [div_eq, parts_one, div_unit (parts_fits x), of_parts_parts]

theorem float_neg_neg : - -x = x := by
  apply eq_of_parts
  rw [parts_neg, parts_neg]
  cases parts x with
  | notANumber => rfl
  | infinity s => cases s <;> rfl
  | zero s => cases s <;> rfl
  | finite s m e hm => cases s <;> rfl

theorem float_add_neg_zero : x + -0.0 = x := by
  rw [add_eq, parts_neg_zero]
  conv_rhs => rw [← of_parts_parts x]
  cases parts x with
  | zero s => cases s <;> rfl
  | _ => rfl

theorem float_add_comm (y : Float) : x + y = y + x := by
  rw [add_eq, add_eq]
  cases parts x with
  | notANumber => cases parts y <;> rfl
  | infinity s =>
    cases parts y with
    | infinity t => cases s <;> cases t <;> rfl
    | _ => rfl
  | zero s =>
    cases parts y with
    | zero t => cases s <;> cases t <;> rfl
    | _ => rfl
  | finite s m e hm =>
    cases parts y with
    | finite t n f hn =>
      simp only [UnpackedFloat.add]
      rw [add_comm (s.apply _), min_comm]
    | _ => rfl

theorem float_neg_zero_add : -0.0 + x = x := by
  rw [float_add_comm, float_add_neg_zero]

end Identities

/-! ## The sign of zero -/

open Solution (withoutNegativeZero)

theorem without_negative_zero_eq {x : Float} (h : x ≠ -0.0) : withoutNegativeZero x = x := by
  rw [withoutNegativeZero, add_eq, parts_zero]
  conv_rhs => rw [← of_parts_parts x]
  cases hx : parts x with
  | zero s =>
    cases s with
    | positive => rfl
    | negative => exact absurd (eq_of_parts (hx.trans parts_neg_zero.symm)) h
  | _ => rfl

theorem without_negative_zero_ne (x : Float) : withoutNegativeZero x ≠ -0.0 := by
  by_cases h : x = -0.0
  · rw [h]
    decide
  · rw [without_negative_zero_eq h]
    exact h

/-- The result does not depend on the sign of a zero argument. -/
def Blind {β : Type} (f : Float → β) : Prop := f 0.0 = f (-0.0)

section Blind
variable {β : Type} {f : Float → β}

theorem Blind.apply (h : Blind f) (x : Float) : f (withoutNegativeZero x) = f x := by
  by_cases hx : x = -0.0
  · rw [hx]
    exact h
  · rw [without_negative_zero_eq hx]

theorem Blind.congr (h : Blind f) {x y : Float}
    (hxy : withoutNegativeZero x = withoutNegativeZero y) : f x = f y := by
  rw [← h.apply x, hxy, h.apply]

theorem blind_without_negative_zero : Blind withoutNegativeZero := by rfl

theorem blind_is_negligible : Blind isNegligible := by rfl

theorem blind_unsigned_if_negligible : Blind ComplexNumber.unsignedIfNegligible := by rfl

theorem Blind.neg (h : Blind f) : Blind fun z => f (-z) := h.symm

theorem Blind.add (h : Blind f) (r : Float) : Blind fun z => f (z + r) := by
  change f (0.0 + r) = f (-0.0 + r)
  rw [add_eq, add_eq, parts_zero, parts_neg_zero]
  cases parts r with
  | zero s =>
    cases s with
    | positive => rfl
    | negative => exact h
  | _ => rfl

theorem Blind.sub (h : Blind f) (r : Float) : Blind fun z => f (z - r) := by
  change f (0.0 - r) = f (-0.0 - r)
  rw [sub_eq, sub_eq, parts_zero, parts_neg_zero]
  cases parts r with
  | zero s =>
    cases s with
    | positive => exact h
    | negative => rfl
  | _ => rfl

theorem Blind.mul (h : Blind f) (x : Float) : Blind fun z => f (x * z) := by
  change f (x * 0.0) = f (x * -0.0)
  rw [mul_eq, mul_eq, parts_zero, parts_neg_zero]
  cases parts x with
  | zero s =>
    cases s with
    | positive => exact h
    | negative => exact h.symm
  | finite s m e hm =>
    cases s with
    | positive => exact h
    | negative => exact h.symm
  | _ => rfl

theorem Blind.div (h : Blind f) (y : Float) : Blind fun z => f (z / y) := by
  change f (0.0 / y) = f (-0.0 / y)
  rw [div_eq, div_eq, parts_zero, parts_neg_zero]
  cases parts y with
  | infinity s =>
    cases s with
    | positive => exact h
    | negative => exact h.symm
  | finite s m e hm =>
    cases s with
    | positive => exact h
    | negative => exact h.symm
  | _ => rfl

/-- A number that is no negative zero less a zero. -/
theorem blind_sub_right {x : Float} (hx : x ≠ -0.0) : Blind fun z => x - z := by
  change x - 0.0 = x - -0.0
  rw [sub_eq, sub_eq, parts_zero, parts_neg_zero]
  cases hp : parts x with
  | zero s =>
    cases s with
    | positive => rfl
    | negative => exact absurd (eq_of_parts (hp.trans parts_neg_zero.symm)) hx
  | _ => rfl

end Blind

theorem sign_of_finite {s : Sign} {m : ℕ} {e : ℤ} (hm : 0 < m) :
    signOf (ofParts (.finite s m e hm)) = s := by
  rw [← unpack_sign_eq]
  change Sign.ofBitVec (unpackSign (UnpackedFloat.pack Format.binary64 (.finite s m e hm))) = s
  unfold UnpackedFloat.pack
  dsimp only [packedInfinity]
  split_ifs <;> rw [unpackSign_packComponents, Sign.ofBitVec_toBitVec]

theorem sign_of_rounded {s : Sign} {m : ℕ} {e : ℤ} {a : Accuracy} :
    signOf (ofParts (roundWithAccuracy Format.binary64 s m e a)) = s := by
  rw [roundWithAccuracy]
  dsimp only
  split_ifs
  · cases s <;> rfl
  · exact sign_of_finite _

theorem square_ne_neg_zero (x : Float) : x * x ≠ -0.0 := by
  intro h
  rw [mul_eq] at h
  cases hx : parts x with
  | notANumber =>
    rw [hx] at h
    exact absurd h (by decide)
  | infinity s =>
    rw [hx] at h
    exact absurd h (by cases s <;> decide)
  | zero s =>
    rw [hx] at h
    exact absurd h (by cases s <;> decide)
  | finite s m e hm =>
    rw [hx, UnpackedFloat.mul] at h
    have hsign := congrArg signOf h
    rw [sign_of_rounded] at hsign
    cases s <;> exact absurd hsign nofun

end Trinomial.Number
