import Trinomial.Proofs.Number.Parts

/-! # The order of numbers

Numbers stand on a line: the bit patterns counted from zero, upwards for positive numbers and downwards
for negative ones, both zeros at 0. Comparison of numbers is comparison of their places, and the total
order of the patterns follows the line except that it tells apart the two zeros.
-/
set_option autoImplicit false

namespace Trinomial.Number
open Float.Model Float.Model.UnpackedFloat

/-! ## The line of numbers -/

/-- The place of a finite number among those of its sign, counted from zero. -/
def place (m : ℕ) (e : ℤ) : ℤ := (e + 1074) * 2 ^ 52 + m

/-- The place after all finite numbers. -/
def lastPlace : ℤ := 2047 * 2 ^ 52

/-- The place of a number on the line, with both zeros at 0. -/
def ordinalOf : UnpackedFloat → ℤ
  | .finite s m e _ => s.apply (place m e)
  | .infinity s => s.apply lastPlace
  | _ => 0

theorem place_bounds {s : Sign} {m : ℕ} {e : ℤ} {hm : 0 < m} (h : Fits (.finite s m e hm)) :
    0 < place m e ∧ place m e < lastPlace := by
  obtain ⟨hlt, hmin, hmax, hnormal⟩ := h
  rw [place, lastPlace]
  omega

theorem compare_places {s t : Sign} {m n : ℕ} {e f : ℤ} {hm : 0 < m} {hn : 0 < n}
    (h : Fits (.finite s m e hm)) (h' : Fits (.finite t n f hn)) :
    (compare e f).then (compare m n) = compare (place m e) (place n f) := by
  obtain ⟨hlt, hmin, -, hnormal⟩ := h
  obtain ⟨hlt', hmin', -, hnormal'⟩ := h'
  rcases lt_trichotomy e f with hef | rfl | hef
  · have hplace : place m e < place n f := by
      rw [place, place]
      omega
    rw [compare_lt_iff_lt.mpr hef, compare_lt_iff_lt.mpr hplace]
    rfl
  · have hlt : place m e < place n e ↔ m < n := by
      rw [place, place]
      omega
    have heq : place m e = place n e ↔ m = n := by
      rw [place, place]
      omega
    rw [compare_eq_iff_eq.mpr rfl]
    rcases lt_trichotomy m n with hmn | hmn | hmn
    · rw [compare_lt_iff_lt.mpr hmn, compare_lt_iff_lt.mpr (hlt.mpr hmn)]
      rfl
    · rw [compare_eq_iff_eq.mpr hmn, compare_eq_iff_eq.mpr (heq.mpr hmn)]
      rfl
    · have hgt : place n e < place m e := by omega
      rw [compare_gt_iff_gt.mpr hmn, compare_gt_iff_gt.mpr hgt]
      rfl
  · have hplace : place n f < place m e := by
      rw [place, place]
      omega
    rw [compare_gt_iff_gt.mpr hef, compare_gt_iff_gt.mpr hplace]
    rfl

theorem compare_neg (a b : ℤ) : compare (-a) (-b) = (compare a b).swap := by
  rcases lt_trichotomy a b with h | rfl | h
  · rw [compare_lt_iff_lt.mpr h, compare_gt_iff_gt.mpr (neg_lt_neg h)]
    rfl
  · rw [compare_eq_iff_eq.mpr rfl, compare_eq_iff_eq.mpr rfl]
    rfl
  · rw [compare_gt_iff_gt.mpr h, compare_lt_iff_lt.mpr (neg_lt_neg h)]
    rfl

/-- Numbers are compared by their places. -/
theorem compare_parts {u v : UnpackedFloat} (hu : Fits u) (hv : Fits v) (hu' : u ≠ .notANumber)
    (hv' : v ≠ .notANumber) : u.compare v = some (compare (ordinalOf u) (ordinalOf v)) := by
  have below {a b : ℤ} (h : a < b) : some Ordering.lt = some (compare a b) := by
    rw [compare_lt_iff_lt.mpr h]
  have above {a b : ℤ} (h : b < a) : some Ordering.gt = some (compare a b) := by
    rw [compare_gt_iff_gt.mpr h]
  have hlast : 0 < lastPlace := by decide
  cases u with
  | notANumber => exact absurd rfl hu'
  | infinity s =>
    cases v with
    | notANumber => exact absurd rfl hv'
    | infinity t => cases s <;> cases t <;> rfl
    | zero t =>
      cases s with
      | positive => exact above hlast
      | negative => exact below (neg_lt_zero.mpr hlast)
    | finite t n f hn =>
      obtain ⟨hpos, hlt⟩ := place_bounds hv
      cases s <;> cases t
      · exact below (neg_lt_neg hlt)
      · exact below (by linarith : -lastPlace < place n f)
      · exact above (by linarith : -place n f < lastPlace)
      · exact above hlt
  | zero s =>
    cases v with
    | notANumber => exact absurd rfl hv'
    | infinity t =>
      cases t with
      | positive => exact below hlast
      | negative => exact above (neg_lt_zero.mpr hlast)
    | zero t => rfl
    | finite t n f hn =>
      obtain ⟨hpos, -⟩ := place_bounds hv
      cases t with
      | positive => exact below hpos
      | negative => exact above (neg_lt_zero.mpr hpos)
  | finite s m e hm =>
    obtain ⟨hpos, hlt⟩ := place_bounds hu
    cases v with
    | notANumber => exact absurd rfl hv'
    | infinity t =>
      cases s <;> cases t
      · exact above (neg_lt_neg hlt)
      · exact below (by linarith : -place m e < lastPlace)
      · exact above (by linarith : -lastPlace < place m e)
      · exact below hlt
    | zero t =>
      cases s with
      | positive => exact above hpos
      | negative => exact below (neg_lt_zero.mpr hpos)
    | finite t n f hn =>
      obtain ⟨hpos', -⟩ := place_bounds hv
      cases s <;> cases t
      · change some ((compare e f).then (compare m n)).swap =
          some (compare (-place m e) (-place n f))
        rw [compare_places hu hv, compare_neg]
      · exact below (by linarith : -place m e < place n f)
      · exact above (by linarith : -place n f < place m e)
      · exact congrArg some (compare_places hu hv)

/-! ## Comparison of numbers -/

/-- The place of a number on the line. -/
def ordinal (x : Float) : ℤ := ordinalOf (parts x)

section Numbers
variable {x y : Float}

theorem parts_ne_nan (hx : x.isNaN = false) : parts x ≠ .notANumber := by
  intro h
  change (parts x).isNaN = false at hx
  rw [h] at hx
  cases hx

theorem is_nan_of_finite (hx : x.isFinite = true) : x.isNaN = false := by
  change (parts x).isFinite = true at hx
  change (parts x).isNaN = false
  cases hp : parts x <;> rw [hp] at hx <;> first | rfl | cases hx

/-- What is not a number is below and above nothing. -/
theorem is_nan_of_lt (h : x < y) : x.isNaN = false ∧ y.isNaN = false := by
  change (parts x).isNaN = false ∧ (parts y).isNaN = false
  rw [lt_iff] at h
  cases hu : parts x with
  | notANumber =>
    rw [hu] at h
    cases h
  | _ =>
    refine ⟨rfl, ?_⟩
    cases hv : parts y with
    | notANumber =>
      rw [hu, hv] at h
      cases h
    | _ => rfl

theorem compare_ordinals (hx : x.isNaN = false) (hy : y.isNaN = false) :
    (parts x).compare (parts y) = some (compare (ordinal x) (ordinal y)) :=
  compare_parts (parts_fits x) (parts_fits y) (parts_ne_nan hx) (parts_ne_nan hy)

theorem lt_iff_ordinal (hx : x.isNaN = false) (hy : y.isNaN = false) :
    x < y ↔ ordinal x < ordinal y := by
  rw [lt_iff, UnpackedFloat.lt, compare_ordinals hx hy, ← compare_lt_iff_lt]
  cases compare (ordinal x) (ordinal y) <;> decide

theorem not_lt_of_lt (h : x < y) : ¬y < x := by
  obtain ⟨hx, hy⟩ := is_nan_of_lt h
  rw [lt_iff_ordinal hx hy] at h
  rw [lt_iff_ordinal hy hx]
  exact h.not_gt

theorem le_iff_ordinal (hx : x.isNaN = false) (hy : y.isNaN = false) :
    x ≤ y ↔ ordinal x ≤ ordinal y := by
  rw [le_iff, UnpackedFloat.le, compare_ordinals hx hy, ← compare_le_iff_le]
  cases compare (ordinal x) (ordinal y) <;> decide

theorem not_lt_of_le (h : x ≤ y) : ¬y < x := by
  intro hlt
  obtain ⟨hy, hx⟩ := is_nan_of_lt hlt
  rw [le_iff_ordinal hx hy] at h
  rw [lt_iff_ordinal hy hx] at hlt
  exact absurd hlt h.not_gt

theorem beq_iff_ordinal (hx : x.isNaN = false) (hy : y.isNaN = false) :
    (x == y) = true ↔ ordinal x = ordinal y := by
  change (parts x).beq (parts y) = true ↔ _
  rw [UnpackedFloat.beq, compare_ordinals hx hy, ← compare_eq_iff_eq (a := ordinal x)]
  cases compare (ordinal x) (ordinal y) <;> decide

/-- What is not a number equals nothing; numbers are equal at one place of the line. -/
theorem beq_iff : (x == y) = true ↔
    x.isNaN = false ∧ y.isNaN = false ∧ ordinal x = ordinal y := by
  constructor
  · intro h
    obtain ⟨hx, hy, -⟩ := Float.beq_iff_ne_nan_and_eq.mp h
    have hx' : x.isNaN = false := by rw [Float.isNaN_eq_decide_eq_nan, decide_eq_false hx]
    have hy' : y.isNaN = false := by rw [Float.isNaN_eq_decide_eq_nan, decide_eq_false hy]
    exact ⟨hx', hy', (beq_iff_ordinal hx' hy').mp h⟩
  · rintro ⟨hx, hy, h⟩
    exact (beq_iff_ordinal hx hy).mpr h

theorem beq_congr (h : (x == y) = true) (z : Float) : (x == z) = (y == z) := by
  obtain ⟨hx, hy, hplace⟩ := beq_iff.mp h
  rw [Bool.eq_iff_iff, beq_iff, beq_iff, hx, hy, hplace]

theorem beq_swap (x y : Float) : (x == y) = (y == x) := by
  rw [Bool.eq_iff_iff, beq_iff, beq_iff, eq_comm (a := ordinal x)]
  exact and_left_comm

theorem lt_zero_iff_ordinal (hx : x.isNaN = false) : x < 0.0 ↔ ordinal x < 0 :=
  lt_iff_ordinal hx rfl

theorem zero_lt_iff_ordinal (hx : x.isNaN = false) : 0.0 < x ↔ 0 < ordinal x :=
  lt_iff_ordinal rfl hx

end Numbers

/-! ## The total order of bit patterns -/

/-- A bit pattern without its sign. -/
def size (x : Float) : ℕ := exponentField x * 2 ^ 52 + fractionField x

section Patterns
variable (x : Float)

theorem to_bits_eq : x.toBits.toNat = (if isNegative x then 2 ^ 63 else 0) + size x := by
  have hlt : x.toBits.toNat < 2 ^ 64 := x.toBits.toNat_lt
  have hsign : isNegative x = true ↔ x.toBits.toNat / 2 ^ 63 = 1 := by
    rw [is_negative_iff, unpack_sign_to_nat]
    exact Iff.rfl
  have hfields : size x =
      x.toBits.toNat / 2 ^ 52 % 2 ^ 11 * 2 ^ 52 + x.toBits.toNat % 2 ^ 52 := by
    rw [size, ← unpack_exponent_eq, ← unpack_mantissa_eq, unpack_exponent_to_nat,
      unpack_mantissa_to_nat]
    rfl
  split_ifs with h
  · have := hsign.mp h
    omega
  · have : x.toBits.toNat / 2 ^ 63 ≠ 1 := fun hh => h (hsign.mpr hh)
    omega

theorem size_lt : size x < 2 ^ 63 := by
  have he := exponent_field_lt x
  have hf := fraction_field_lt x
  rw [size]
  omega

theorem rank_eq : rank x = if isNegative x then -1 - (size x : ℤ) else size x := by
  have hlt := size_lt x
  have hbits : x.toBits < 0x8000000000000000 ↔ x.toBits.toNat < 2 ^ 63 := UInt64.lt_iff_toNat_lt
  simp only [rank, hbits, to_bits_eq]
  split_ifs <;> omega

theorem size_eq_place : (size x : ℤ) = place (magnitude x).significand (magnitude x).scale := by
  rw [size, place]
  by_cases h : exponentField x = 0
  · rw [magnitude_subnormal x h, h]
    push_cast
    ring
  · rw [magnitude_normal x h]
    push_cast
    ring

variable {x} {y : Float}

theorem ordinal_of_size (hx : x.isNaN = false) :
    ordinal x = if isNegative x then -(size x : ℤ) else size x := by
  have hsign (k : ℤ) : (signOf x).apply k = if isNegative x then -k else k := by
    rw [signOf]
    split_ifs <;> rfl
  rw [← hsign, ordinal]
  have hne := parts_ne_nan hx
  rw [parts_eq] at hne ⊢
  by_cases h2047 : exponentField x = 2047
  · by_cases h0 : fractionField x = 0
    · have hlast : (size x : ℤ) = lastPlace := by
        rw [size, h2047, h0]
        rfl
      rw [if_pos h2047, if_pos h0, hlast]
      rfl
    · rw [if_pos h2047, if_neg h0] at hne
      exact absurd rfl hne
  · rw [if_neg h2047, size_eq_place]
    by_cases hpos : 0 < (magnitude x).significand
    · rw [dif_pos hpos]
      rfl
    · rw [dif_neg hpos, magnitude_of_zero (Nat.eq_zero_of_not_pos hpos)]
      cases signOf x <;> rfl

/-- The total order follows the line, except that it tells apart the two zeros. -/
theorem rank_lt_iff (hx : x.isNaN = false) (hy : y.isNaN = false) (h : (x == y) = false) :
    rank x < rank y ↔ x < y := by
  have hne : ¬ordinal x = ordinal y := by
    rw [← beq_iff_ordinal hx hy, h]
    decide
  rw [ordinal_of_size hx, ordinal_of_size hy] at hne
  rw [lt_iff_ordinal hx hy, rank_eq, rank_eq, ordinal_of_size hx, ordinal_of_size hy]
  split_ifs at hne ⊢ <;> omega

theorem rank_lt_of_lt (h : x < y) : rank x < rank y := by
  obtain ⟨hx, hy⟩ := is_nan_of_lt h
  have hne : (x == y) = false := by
    rw [Bool.eq_false_iff, Ne, beq_iff_ordinal hx hy]
    exact ((lt_iff_ordinal hx hy).mp h).ne
  exact (rank_lt_iff hx hy hne).mpr h

theorem le_of_rank_le (hx : x.isNaN = false) (hy : y.isNaN = false) (h : rank x ≤ rank y) :
    x ≤ y := by
  rw [rank_eq, rank_eq] at h
  rw [le_iff_ordinal hx hy, ordinal_of_size hx, ordinal_of_size hy]
  split_ifs at h ⊢ <;> omega

/-- The total order tells apart all patterns. -/
theorem rank_injective (h : rank x = rank y) : x = y := by
  rw [← Float.toBits_inj, ← UInt64.toNat_inj, to_bits_eq, to_bits_eq]
  rw [rank_eq, rank_eq] at h
  split_ifs at h ⊢ <;> omega

end Patterns
end Trinomial.Number
