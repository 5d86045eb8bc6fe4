import Trinomial.Proofs.Number.Rounding

/-! # Numbers and their parts

A bit pattern and its parts determine each other: a sign and a magnitude, a signed zero, a signed
infinity, or what is not a number. Arithmetic takes numbers apart, works on the parts and puts the result
together, so everything below is said about parts.
-/
set_option autoImplicit false

namespace Trinomial.Number
open Float.Model Float.Model.UnpackedFloat

/-- A number taken apart. -/
def parts (x : Float) : UnpackedFloat := x.toModel.unpack

/-- The number with the given parts. -/
def ofParts (u : UnpackedFloat) : Float := .ofModel (.pack u)

/-- The parts of some number: a significand that fits, on the grid of its size. -/
def Fits : UnpackedFloat → Prop
  | .finite _ m e _ => m < 2 ^ 53 ∧ -1074 ≤ e ∧ e ≤ 971 ∧ (2 ^ 52 ≤ m ∨ e = -1074)
  | _ => True

/-! ## Fields of a bit pattern -/

section Fields
variable (b : BitVec Format.binary64.numBits)

theorem unpack_sign_to_nat : (unpackSign b).toNat = b.toNat / 2 ^ 63 := by
  have hb : b.toNat < 2 ^ 64 := b.isLt
  simp only [unpackSign, BitVec.toNat_cast, BitVec.extractLsb_toNat, Nat.shiftRight_eq_div_pow]
  exact Nat.mod_eq_of_lt (by omega)

theorem unpack_exponent_to_nat : (unpackExponent b).toNat = b.toNat / 2 ^ 52 % 2 ^ 11 := by
  simp only [unpackExponent, BitVec.toNat_cast, BitVec.extractLsb_toNat, Nat.shiftRight_eq_div_pow]

theorem unpack_mantissa_to_nat : (unpackMantissa b).toNat = b.toNat % 2 ^ 52 := by
  simp only [unpackMantissa, BitVec.toNat_cast, BitVec.extractLsb_toNat, Nat.shiftRight_zero]

/-- A normal significand is the fraction with the hidden bit before it. -/
theorem hidden_bit (m : BitVec 52) : (1#1 ++ m).toNat = 2 ^ 52 + m.toNat := by
  rw [BitVec.toNat_append, ← Nat.shiftLeft_add_eq_or_of_lt m.isLt]
  rfl

theorem eq_ones_iff (e : BitVec 11) : e = -1#11 ↔ e.toNat = 2047 := by
  rw [← BitVec.toNat_inj]
  exact Iff.rfl

theorem eq_zero_iff {w : ℕ} (v : BitVec w) : v = 0#w ↔ v.toNat = 0 := by
  rw [← BitVec.toNat_inj, BitVec.toNat_zero]

end Fields

/-! ## Fields of a number -/

section Number
variable (x : Float)

/-- The bit pattern as parts are cut from it. -/
def bitVec : BitVec Format.binary64.numBits := x.toBits.toBitVec

/-- The sign as parts name it. -/
def signOf : Sign := if isNegative x then .negative else .positive

theorem unpack_exponent_eq : (unpackExponent (bitVec x)).toNat = exponentField x := by
  rw [unpack_exponent_to_nat, exponentField, UInt64.toNat_and, UInt64.toNat_shiftRight]
  change x.toBits.toNat / 2 ^ 52 % 2 ^ 11 = x.toBits.toNat >>> 52 &&& (2 ^ 11 - 1)
  rw [Nat.and_two_pow_sub_one_eq_mod, Nat.shiftRight_eq_div_pow]

theorem unpack_mantissa_eq : (unpackMantissa (bitVec x)).toNat = fractionField x := by
  rw [unpack_mantissa_to_nat, fractionField, UInt64.toNat_and]
  change x.toBits.toNat % 2 ^ 52 = x.toBits.toNat &&& (2 ^ 52 - 1)
  rw [Nat.and_two_pow_sub_one_eq_mod]

theorem is_negative_iff : isNegative x = true ↔ (unpackSign (bitVec x)).toNat = 1 := by
  rw [unpack_sign_to_nat, isNegative, beq_iff_eq, ← UInt64.toNat_inj, UInt64.toNat_shiftRight]
  change x.toBits.toNat >>> 63 = 1 ↔ x.toBits.toNat / 2 ^ 63 = 1
  rw [Nat.shiftRight_eq_div_pow]

theorem unpack_sign_eq : Sign.ofBitVec (unpackSign (bitVec x)) = signOf x := by
  have hlt : (unpackSign (bitVec x)).toNat < 2 := BitVec.isLt _
  simp only [signOf, is_negative_iff, Sign.ofBitVec, eq_zero_iff]
  split_ifs <;> first | rfl | omega

theorem exponent_field_lt : exponentField x < 2048 := by
  rw [← unpack_exponent_eq]
  exact BitVec.isLt _

theorem fraction_field_lt : fractionField x < 2 ^ 52 := by
  rw [← unpack_mantissa_eq]
  exact BitVec.isLt _

/-- What a number is taken apart into. -/
theorem parts_eq :
    parts x =
      if exponentField x = 2047 then
        if fractionField x = 0 then .infinity (signOf x) else .notANumber
      else if h : 0 < (magnitude x).significand then
        .finite (signOf x) (magnitude x).significand (magnitude x).scale h
      else .zero (signOf x) := by
  have hbias : (Format.binary64.exponentBias : Int) + (52 : Nat) = 1075 := by decide
  change UnpackedFloat.unpack Format.binary64 (bitVec x) = _
  simp only [UnpackedFloat.unpack, eq_ones_iff, eq_zero_iff, hbias, unpack_exponent_eq,
    unpack_mantissa_eq, unpack_sign_eq, hidden_bit, magnitude]
  by_cases h0 : exponentField x = 0
  · by_cases hf : fractionField x = 0
    · simp [h0, hf]
    · simp [h0, hf, Nat.pos_of_ne_zero hf]
  · simp [h0]

theorem magnitude_subnormal (h : exponentField x = 0) :
    magnitude x = ⟨fractionField x, -1074, false⟩ :=
  if_pos h

theorem magnitude_normal (h : exponentField x ≠ 0) :
    magnitude x = ⟨2 ^ 52 + fractionField x, (exponentField x : Int) - 1075,
      fractionField x == 0 && decide (1 < exponentField x)⟩ :=
  if_neg h

/-- The numbers that are neither zero nor beyond the range have a regular magnitude. -/
theorem magnitude_regular (hexp : exponentField x ≠ 2047) (hpos : 0 < (magnitude x).significand) :
    (magnitude x).Regular := by
  have he := exponent_field_lt x
  have hf := fraction_field_lt x
  by_cases h0 : exponentField x = 0
  · rw [magnitude_subnormal x h0] at hpos ⊢
    refine ⟨hpos, ?_, le_refl _, ?_, .inr rfl, ?_⟩ <;> dsimp only
    · omega
    · omega
    · simp
  · rw [magnitude_normal x h0] at hpos ⊢
    refine ⟨hpos, ?_, ?_, ?_, .inl ?_, ?_⟩ <;> dsimp only
    · omega
    · omega
    · omega
    · omega
    · rw [Bool.and_eq_true, beq_iff_eq, decide_eq_true_iff]
      omega

theorem parts_fits : Fits (parts x) := by
  rw [parts_eq]
  split_ifs with h h' h'
  · trivial
  · trivial
  · have hreg := magnitude_regular x h h'
    exact ⟨hreg.lt, hreg.min_le, hreg.le_max, hreg.normal⟩
  · trivial

end Number

/-! ## Putting together -/

theorem pack_finite {s : Sign} {m : ℕ} {e : ℤ} (hm : 0 < m) (h : Fits (.finite s m e hm)) :
    UnpackedFloat.pack Format.binary64 (.finite s m e hm) =
      packComponents Format.binary64 s (if 2 ^ 52 ≤ m then .ofNat 11 (e + 1075).toNat else 0#11)
        (.ofNat 52 m) := by
  obtain ⟨hlt, hmin, hmax, -⟩ := h
  have hbias : e + (Format.binary64.exponentBias : Int) + (52 : Nat) = e + 1075 := by
    rw [add_assoc]
    rfl
  have hbits : Format.binary64.mantissaBits = 53 := by decide
  have hlog : m.log2 + 1 = 53 ↔ 2 ^ 52 ≤ m := by
    rw [← Nat.le_log2 hm.ne', Nat.succ_inj]
    have := (Nat.log2_lt hm.ne').mpr hlt
    omega
  simp only [UnpackedFloat.pack, hbias, hbits, hlog]
  rw [if_neg (by omega)]
  split_ifs <;> rfl

theorem parts_of_parts {u : UnpackedFloat} (h : Fits u) : parts (ofParts u) = u := by
  change UnpackedFloat.unpack Format.binary64 (UnpackedFloat.pack Format.binary64 u) = u
  have hbias : (Format.binary64.exponentBias : Int) + (52 : Nat) = 1075 := by decide
  cases u with
  | notANumber => rfl
  | infinity s => cases s <;> rfl
  | zero s => cases s <;> rfl
  | finite s m e hm =>
    obtain ⟨hlt, hmin, hmax, hnormal⟩ := id h
    simp only [pack_finite hm h, UnpackedFloat.unpack, unpackMantissa_packComponents,
      unpackExponent_packComponents, unpackSign_packComponents, Sign.ofBitVec_toBitVec, eq_ones_iff,
      eq_zero_iff, hbias, hidden_bit]
    by_cases hn : 2 ^ 52 ≤ m
    · have hexp : (BitVec.ofNat 11 (e + 1075).toNat).toNat = (e + 1075).toNat := by
        rw [BitVec.toNat_ofNat]
        omega
      have hfrac : 2 ^ 52 + (BitVec.ofNat 52 m).toNat = m := by
        rw [BitVec.toNat_ofNat]
        omega
      simp only [hn, if_true, hexp, hfrac]
      rw [if_neg (by omega), if_neg (by omega)]
      congr 1
      omega
    · have hfrac : (BitVec.ofNat 52 m).toNat = m := by
        rw [BitVec.toNat_ofNat]
        omega
      simp only [hn, if_false, hfrac]
      rw [if_neg (by decide), if_pos (by decide), dif_neg hm.ne']
      congr 1
      exact (hnormal.resolve_left hn).symm

theorem of_parts_parts (x : Float) : ofParts (parts x) = x := Float.ofBits_toBits x

/-! ## Finite numbers -/

/-- A finite number is a signed zero or has a regular magnitude. -/
theorem finite_cases {x : Float} (h : x.isFinite = true) :
    (parts x = .zero (signOf x) ∧ (magnitude x).significand = 0) ∨
      ∃ hreg : (magnitude x).Regular,
        parts x = .finite (signOf x) (magnitude x).significand (magnitude x).scale hreg.pos := by
  change (parts x).isFinite = true at h
  rw [parts_eq] at h ⊢
  split_ifs at h ⊢ with h2047 h0 hpos
  · cases h
  · cases h
  · exact .inr ⟨magnitude_regular x h2047 hpos, rfl⟩
  · exact .inl ⟨rfl, Nat.eq_zero_of_not_pos hpos⟩

theorem sign_of_zero {x : Float} {s : Sign} (h : parts x = .zero s) : signOf x = s := by
  rw [parts_eq] at h
  split_ifs at h
  cases h
  rfl

theorem of_parts_finite {x : Float} {s : Sign} {m : ℕ} {e : ℤ} {hm : 0 < m}
    (h : parts x = .finite s m e hm) :
    signOf x = s ∧ (magnitude x).significand = m ∧ (magnitude x).scale = e := by
  rw [parts_eq] at h
  split_ifs at h
  cases h
  exact ⟨rfl, rfl, rfl⟩

/-! ## Operations on parts -/

theorem fits_neg {u : UnpackedFloat} (h : Fits u) : Fits u.neg := by
  cases u with
  | finite s m e hm => exact h
  | _ => trivial

theorem fits_abs {u : UnpackedFloat} (h : Fits u) : Fits u.abs := by
  cases u with
  | finite s m e hm => exact h
  | _ => trivial

section Operations
variable (x y : Float)

theorem add_eq : x + y = ofParts (.add Format.binary64 (parts x) (parts y)) := rfl

theorem sub_eq : x - y = ofParts (.sub Format.binary64 (parts x) (parts y)) := rfl

theorem mul_eq : x * y = ofParts (.mul Format.binary64 (parts x) (parts y)) := rfl

theorem div_eq : x / y = ofParts (.div Format.binary64 (parts x) (parts y)) := rfl

theorem lt_iff : x < y ↔ (parts x).lt (parts y) = true := by
  change decide ((parts x).lt (parts y) = true) = true ↔ _
  exact decide_eq_true_iff

theorem le_iff : x ≤ y ↔ (parts x).le (parts y) = true := by
  change decide ((parts x).le (parts y) = true) = true ↔ _
  exact decide_eq_true_iff

theorem parts_neg : parts (-x) = (parts x).neg := parts_of_parts (fits_neg (parts_fits x))

theorem parts_abs : parts x.abs = (parts x).abs := parts_of_parts (fits_abs (parts_fits x))

end Operations

theorem eq_of_parts {x y : Float} (h : parts x = parts y) : x = y := by
  rw [← of_parts_parts x, h, of_parts_parts]

theorem parts_zero : parts 0.0 = .zero .positive := by rfl

theorem parts_neg_zero : parts (-0.0) = .zero .negative := by rfl

/-! ## Signs of finite numbers -/

theorem magnitude_of_zero {x : Float} (h : (magnitude x).significand = 0) :
    magnitude x = ⟨0, -1074, false⟩ := by
  by_cases h0 : exponentField x = 0
  · rw [magnitude_subnormal x h0] at h ⊢
    dsimp only at h
    rw [h]
  · rw [magnitude_normal x h0] at h
    dsimp only at h
    omega

theorem regular_ext {x y : Magnitude} (hx : x.Regular) (hy : y.Regular)
    (hm : x.significand = y.significand) (he : x.scale = y.scale) : x = y := by
  have hn : x.narrowBelow = y.narrowBelow := by
    rw [Bool.eq_iff_iff, hx.narrow_iff, hy.narrow_iff, hm, he]
  cases x
  cases y
  cases hm
  cases he
  cases hn
  rfl

section Signs
variable {x y : Float}

theorem sign_of_negative (h : isNegative x = true) : signOf x = .negative := if_pos h

theorem sign_of_nonnegative (h : isNegative x = false) : signOf x = .positive := by
  rw [signOf, h]
  rfl

theorem finite_neg (hx : x.isFinite = true) : (-x).isFinite = true := by
  change (parts (-x)).isFinite = true
  rw [parts_neg]
  rcases finite_cases hx with ⟨h, -⟩ | ⟨_, h⟩ <;> rw [h] <;> rfl

/-- Negation turns the sign and leaves the magnitude. -/
theorem parts_of_neg (hx : x.isFinite = true) :
    signOf (-x) = -signOf x ∧ magnitude (-x) = magnitude x := by
  rcases finite_cases hx with ⟨h, hm⟩ | ⟨hreg, h⟩
  · have hneg : parts (-x) = .zero (-signOf x) := by
      rw [parts_neg, h]
      rfl
    rcases finite_cases (finite_neg hx) with ⟨-, hm'⟩ | ⟨_, h'⟩
    · exact ⟨sign_of_zero hneg, by rw [magnitude_of_zero hm, magnitude_of_zero hm']⟩
    · rw [hneg] at h'
      cases h'
  · have hneg : parts (-x) =
        .finite (-signOf x) (magnitude x).significand (magnitude x).scale hreg.pos := by
      rw [parts_neg, h]
      rfl
    obtain ⟨hs, hm, he⟩ := of_parts_finite hneg
    rcases finite_cases (finite_neg hx) with ⟨h', -⟩ | ⟨hreg', -⟩
    · rw [hneg] at h'
      cases h'
    · exact ⟨hs, regular_ext hreg' hreg hm he⟩

theorem is_negative_neg (hx : x.isFinite = true) : isNegative (-x) = !isNegative x := by
  have hs := (parts_of_neg hx).1
  cases h : isNegative x <;> cases h' : isNegative (-x)
  · rw [sign_of_nonnegative h, sign_of_nonnegative h'] at hs
    cases hs
  · rfl
  · rfl
  · rw [sign_of_negative h, sign_of_negative h'] at hs
    cases hs

theorem abs_of_negative (hx : x.isFinite = true) (hn : isNegative x = true) : x.abs = -x := by
  apply eq_of_parts
  rw [parts_abs, parts_neg]
  rcases finite_cases hx with ⟨h, -⟩ | ⟨_, h⟩ <;> rw [h, sign_of_negative hn] <;> rfl

theorem abs_of_nonnegative (hx : x.isFinite = true) (hn : isNegative x = false) : x.abs = x := by
  apply eq_of_parts
  rw [parts_abs]
  rcases finite_cases hx with ⟨h, -⟩ | ⟨_, h⟩ <;> rw [h, sign_of_nonnegative hn] <;> rfl

theorem abs_finite (hx : x.isFinite = true) :
    x.abs.isFinite = true ∧ isNegative x.abs = false ∧ magnitude x.abs = magnitude x := by
  cases hn : isNegative x with
  | true =>
    rw [abs_of_negative hx hn, is_negative_neg hx, hn]
    exact ⟨finite_neg hx, rfl, (parts_of_neg hx).2⟩
  | false =>
    rw [abs_of_nonnegative hx hn]
    exact ⟨hx, hn, rfl⟩

theorem negative_lt_zero {m : ℕ} {e : ℤ} (hm : 0 < m) (s : Sign) :
    (UnpackedFloat.finite .negative m e hm).lt (.zero s) = true := by rfl

theorem positive_lt_zero {m : ℕ} {e : ℤ} (hm : 0 < m) (s : Sign) :
    (UnpackedFloat.finite .positive m e hm).lt (.zero s) = false := by rfl

/-- What is below zero has a sign and is no zero. -/
theorem lt_zero_iff (hx : x.isFinite = true) : x < 0.0 ↔ isNegative x = true ∧ x ≠ -0.0 := by
  rw [lt_iff, parts_zero]
  cases hn : isNegative x with
  | true =>
    rcases finite_cases hx with ⟨h, -⟩ | ⟨_, h⟩ <;> rw [sign_of_negative hn] at h
    · rw [eq_of_parts (h.trans parts_neg_zero.symm)]
      decide
    · rw [h, negative_lt_zero]
      refine iff_of_true rfl ⟨rfl, fun h0 => ?_⟩
      have hparts := congrArg parts h0
      rw [h, parts_neg_zero] at hparts
      cases hparts
  | false =>
    refine iff_of_false ?_ nofun
    rcases finite_cases hx with ⟨h, -⟩ | ⟨_, h⟩ <;> rw [h, sign_of_nonnegative hn]
    · decide
    · rw [positive_lt_zero]
      decide

/-- Only what is not a number differs from itself. -/
theorem beq_self (hx : x.isFinite = true) : (x == x) = true := by
  refine Float.beq_self_iff.mpr fun h => ?_
  rw [h] at hx
  cases hx

end Signs

end Trinomial.Number
