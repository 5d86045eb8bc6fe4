import Trinomial.Proofs.Power.Nesting
import Trinomial.Proofs.Power.Roots
import Trinomial.Proofs.Power.Signs

/-! # Integer powers as products

An exponent that halving leads to an integer below ten is lowered from there to zero. Such a power is the
product of as many bases, squared as often as the exponent was halved, with the sign of the exact power, and
no square root is taken for it.
-/
set_option autoImplicit false

namespace Trinomial.Number

/-- The base multiplied `m` times onto one, from the right. -/
def repeatedProduct (b : Float) : ℕ → Float
  | 0 => 1.0
  | m + 1 => b * repeatedProduct b m

namespace Call
variable {c inner : Call} {m k depth : ℕ} {r : Except Failure Float}

/-! ## Calls without square roots -/

/-- From this call on no exponent is reduced by a square root. -/
def Rootless (c : Call) : Prop := ∀ inner, Relation.ReflTransGen Makes c inner → ¬inner.Fractional

theorem Rootless.nested (h : c.Rootless) (hnested : c.nested = some inner) : inner.Rootless :=
  fun d hd => h d (.head hnested hd)

theorem Rootless.not_radicand (h : c.Rootless) (x : Float) : ¬Radicand c x := by
  intro hx
  induction hx with
  | last hfractional => exact h _ .refl hfractional
  | doubled hfractional => exact h _ .refl hfractional
  | nested hnested _ ih => exact ih (h.nested hnested)

theorem log_of_map {p : Option (Traced Float)} {f : Float → Float} {x : Traced Float}
    (hp : ∀ y, p = some y → y.log = [])
    (h : (p.map fun y => do return f (← y)) = some x) : x.log = [] := by
  obtain ⟨⟨log, result⟩, hy, rfl⟩ := Option.map_eq_some_iff.mp h
  cases hp _ hy
  cases result <;> rfl

/-- Only square roots leave records. -/
theorem Rootless.log_eq (h : c.Rootless) {x : Traced Float} (hx : c.run depth = some x) :
    x.log = [] := by
  induction depth generalizing c x with
  | zero => cases hx
  | succ depth ih =>
    cases hsettled : c.settled with
    | true =>
      rw [run, power_within_settled hsettled] at hx
      cases hx
      rfl
    | false =>
      have hinner (inner : Call) (hnested : c.nested = some inner) (y : Traced Float)
          (hy : inner.run depth = some y) : y.log = [] := ih (h.nested hnested) hy
      have hbranch := branch hsettled
      rw [run, power_within_open hsettled] at hx
      generalize c.nested = nested at hinner hbranch
      cases hbranch with
      | inverse hinverse =>
        rw [if_pos hinverse] at hx
        exact log_of_map (hinner _ rfl) hx
      | halve hinverse hhalve =>
        rw [if_neg hinverse, if_pos hhalve] at hx
        exact log_of_map (hinner _ rfl) hx
      | lower hinverse hhalve hlower =>
        rw [if_neg hinverse, if_neg hhalve, if_pos hlower] at hx
        exact log_of_map (hinner _ rfl) hx
      | last hinverse _ hlower => exact absurd ⟨hsettled, hinverse, hlower⟩ (h c .refl)
      | double hinverse _ hlower => exact absurd ⟨hsettled, hinverse, hlower⟩ (h c .refl)

/-! ## Exponents that stay integral -/

/-- The exponent is `m * 2 ^ k`, and halving it until it is below ten leads to `m`. -/
structure HalvesTo (m k : ℕ) (e : Float) : Prop where
  denotes : Denotes e ((m * 2 ^ k : ℕ) : ℚ)
  small : m < 10
  stops : k = 0 ∨ 5 ≤ m

theorem HalvesTo.pos (h : HalvesTo m k c.exponent) (hopen : c.settled = false) : 1 ≤ m * 2 ^ k := by
  have hcounts := (counts_of_open hopen).2.2.2
  rw [counts_iff h.denotes] at hcounts
  rw [Nat.one_le_iff_ne_zero]
  intro hzero
  rw [hzero, Nat.cast_zero, abs_zero] at hcounts
  exact absurd hcounts (not_le.mpr tolerance_pos)

theorem HalvesTo.not_inverse (h : HalvesTo m k c.exponent) : ¬c.exponent < 0.0 := by
  rw [h.denotes.lt_iff denotes_zero_point, not_lt]
  exact Nat.cast_nonneg _

theorem HalvesTo.lower_iff (h : HalvesTo m k c.exponent) : c.exponent ≥ 1.0 ↔ 1 ≤ m * 2 ^ k := by
  rw [ge_iff_le, denotes_one.le_iff h.denotes]
  exact_mod_cast Iff.rfl

theorem HalvesTo.not_fractional (h : HalvesTo m k c.exponent) : ¬c.Fractional := fun hfractional =>
  hfractional.not_lower (h.lower_iff.mpr (h.pos hfractional.opened))

/-- Halving is what exponents from ten on are reduced by, and these are the ones that are doubled. -/
theorem HalvesTo.halve_iff (h : HalvesTo m k c.exponent) : c.exponent ≥ 10.0 ↔ k ≠ 0 := by
  rw [ge_iff_le, denotes_ten.le_iff h.denotes]
  have hcast : (10 : ℚ) ≤ ((m * 2 ^ k : ℕ) : ℚ) ↔ 10 ≤ m * 2 ^ k := by exact_mod_cast Iff.rfl
  rw [hcast]
  have hsmall := h.small
  rcases Nat.eq_zero_or_pos k with rfl | hk
  · omega
  · have hstops := h.stops.resolve_left hk.ne'
    have hpower : 2 ^ 1 ≤ 2 ^ k := Nat.pow_le_pow_right two_pos hk
    refine iff_of_true ?_ hk.ne'
    calc 10 = 5 * 2 ^ 1 := rfl
      _ ≤ m * 2 ^ k := Nat.mul_le_mul hstops hpower

/-- One step: a doubled exponent is halved, and one that is not doubled is lowered. -/
theorem HalvesTo.step (h : HalvesTo m k c.exponent) (hnested : c.nested = some inner) :
    (∃ k', k = k' + 1 ∧ HalvesTo m k' inner.exponent ∧ ∀ power, c.answer power = .ok (c.sign * square power)) ∨
    (k = 0 ∧ ∃ m', m = m' + 1 ∧ HalvesTo m' 0 inner.exponent ∧
      ∀ power, c.answer power = .ok (c.sign * c.size * power)) := by
  have hopen := open_of_nested hnested
  have hpos := h.pos hopen
  have hone : (1 : ℚ) ≤ ((m * 2 ^ k : ℕ) : ℚ) := by exact_mod_cast hpos
  cases branch_of_nested hnested with
  | inverse hinverse => exact absurd hinverse h.not_inverse
  | halve _ hhalve hanswer =>
    obtain ⟨k', rfl⟩ := Nat.exists_eq_succ_of_ne_zero (h.halve_iff.mp hhalve)
    refine .inl ⟨k', rfl, ⟨?_, h.small, .inr (h.stops.resolve_left (Nat.succ_ne_zero k'))⟩, hanswer⟩
    have hhalf := h.denotes.half (range_bottom_le_of_one hone)
    have hexact : ((m * 2 ^ (k' + 1) : ℕ) : ℚ) / 2 = ((m * 2 ^ k' : ℕ) : ℚ) := by
      push_cast
      ring
    rwa [hexact] at hhalf
  | lower _ hhalve _ hanswer =>
    obtain rfl : k = 0 := not_not.mp (mt h.halve_iff.mpr hhalve)
    obtain ⟨m', rfl⟩ := Nat.exists_eq_succ_of_ne_zero (by omega : m ≠ 0)
    have hsmall := h.small
    refine .inr ⟨rfl, m', rfl, ⟨?_, by omega, .inl rfl⟩, hanswer⟩
    have hten : (((m' + 1) * 2 ^ 0 : ℕ) : ℚ) < 10 := by
      rw [pow_zero, mul_one]
      exact_mod_cast hsmall
    have hlowered := denotes_lowered h.denotes hone hten
    have hexact : (((m' + 1) * 2 ^ 0 : ℕ) : ℚ) - 1 = ((m' * 2 ^ 0 : ℕ) : ℚ) := by
      push_cast
      ring
    rwa [hexact] at hlowered
  | double _ _ hlower => exact absurd (h.lower_iff.mpr hpos) hlower

theorem HalvesTo.rootless (h : HalvesTo m k c.exponent) : c.Rootless := by
  intro d hd
  suffices hreached : ∃ m k, HalvesTo m k d.exponent by
    obtain ⟨m, k, hd⟩ := hreached
    exact hd.not_fractional
  induction hd with
  | refl => exact ⟨m, k, h⟩
  | tail _ hmakes ih =>
    obtain ⟨m, k, hd⟩ := ih
    obtain ⟨k', -, hinner, -⟩ | ⟨-, m', -, hinner, -⟩ := hd.step hmakes
    · exact ⟨m, k', hinner⟩
    · exact ⟨m', 0, hinner⟩

/-- With a positive base the calls multiply and square their way back. -/
theorem HalvesTo.gives (h : HalvesTo m k c.exponent) (hpositive : c.Positive) (hr : Gives c r) :
    r = .ok (square^[k] (repeatedProduct c.base m)) := by
  induction hr generalizing m k with
  | @direct c hnested =>
    have hsettled : c.settled = true := by
      rw [← Bool.not_eq_false]
      exact fun hopen => h.not_fractional (fractional_of_last hopen hnested)
    rw [hpositive.settled_eq] at hsettled
    have hzero : ((m * 2 ^ k : ℕ) : ℤ) = 0 := zero_of_negligible (by exact_mod_cast h.denotes) hsettled
    obtain rfl : m = 0 := by simpa using hzero
    obtain rfl : k = 0 := h.stops.resolve_right (by decide)
    rw [hpositive.direct_eq, if_pos hsettled]
    rfl
  | @nested c inner r hnested _ ih =>
    have hinner := hpositive.nested_positive hnested
    have hbase := hpositive.nested_base hnested
    obtain ⟨k', rfl, hhalves, hanswer⟩ | ⟨rfl, m', rfl, hhalves, hanswer⟩ := h.step hnested
    · rw [ih hhalves hinner, hbase, ok_bind, hanswer, hpositive.sign_eq, float_one_mul,
        Function.iterate_succ_apply']
    · rw [ih hhalves hinner, hbase, ok_bind, hanswer, hpositive.sign_eq, float_one_mul,
        hpositive.size_eq]
      rfl

end Call

/-! ## Powers -/

section Powers
open Call
variable {b e : Float} {m k : ℕ}

theorem power_run (b e : Float) : Call.run powerDepth ⟨b, e, tolerance⟩ = some (power b e) := by
  obtain ⟨run, hrun, -⟩ := exists_run ⟨b, e, tolerance⟩
  rw [Call.run, hrun, power, hrun]
  rfl

theorem power_product_unsigned (h : HalvesTo m k e) (hb : ¬b < 0.0) (hcounts : isNegligible b = false) :
    (power b e).result = .ok (square^[k] (repeatedProduct b.abs m)) := by
  have hpositive : Positive ⟨b, e, tolerance⟩ := ⟨hb, hcounts, h.denotes.finite⟩
  rw [abs_of_unsigned (unsigned_of_counts hb hcounts)]
  exact HalvesTo.gives h hpositive (power_gives b e)

theorem power_product (h : HalvesTo m k e) (hcounts : isNegligible b = false) :
    (power b e).result = .ok (if b < 0.0 ∧ Odd (m * 2 ^ k) then -square^[k] (repeatedProduct b.abs m)
      else square^[k] (repeatedProduct b.abs m)) := by
  by_cases hb : b < 0.0
  · have hpos : 0.0 < -b := pos_of_neg_lt_zero (by rwa [float_neg_neg])
    have hcounts' : isNegligible (-b) = false := by rw [is_negligible_neg, hcounts]
    have hresult := power_product_unsigned h (not_lt_of_lt hpos) hcounts'
    have hopposite := power_opposite_base hpos hcounts' (k := (m * 2 ^ k : ℕ)) (by exact_mod_cast h.denotes)
    have heven : Even ((m * 2 ^ k : ℕ) : ℤ) ↔ ¬Odd (m * 2 ^ k) := by
      rw [Int.even_coe_nat, Nat.not_odd_iff_even]
    rw [float_neg_neg, hresult, float_abs_neg, map_ok, signedBy, if_congr heven rfl rfl, ite_not]
      at hopposite
    rw [hopposite, if_congr (and_iff_right hb) rfl rfl]
  · rw [power_product_unsigned h hb hcounts, if_neg fun hodd => hb hodd.1]

/-- The power of a base that counts, with an exponent `m * 2 ^ k` that is halved to an integer below ten: the
product of `m` bases, squared `k` times, with the sign of the exact power, and no square root on the way. -/
theorem power_product_tree (hcounts : isNegligible b = false) (he : Denotes e ((m * 2 ^ k : ℕ) : ℚ))
    (h : k = 0 ∧ m ≤ 9 ∨ 1 ≤ k ∧ 5 ≤ m ∧ m ≤ 9) :
    power b e = ⟨[], .ok (if b < 0.0 ∧ Odd (m * 2 ^ k)
      then -(fun x => x * x)^[k] (repeatedProduct b.abs m)
      else (fun x => x * x)^[k] (repeatedProduct b.abs m))⟩ ∧
    ∀ x, ¬Radicand ⟨b, e, tolerance⟩ x := by
  have hhalves : HalvesTo m k e := ⟨he, by omega, by omega⟩
  have hrootless : Rootless ⟨b, e, tolerance⟩ := HalvesTo.rootless hhalves
  refine ⟨?_, hrootless.not_radicand⟩
  rw [Traced.eq_mk_of_result (power_product hhalves hcounts), hrootless.log_eq (power_run b e)]
  rfl

theorem denotes_nine : Denotes 9.0 ((9 * 2 ^ 0 : ℕ) : ℚ) :=
  ⟨by rfl, by
    have hparts : parts 9.0 = .finite .positive (9 * 2 ^ 49) (-49) (by decide) := by rfl
    rw [value, hparts, value_of_positive]
    norm_num⟩

theorem denotes_twenty : Denotes 20.0 ((5 * 2 ^ 2 : ℕ) : ℚ) :=
  ⟨by rfl, by
    have hparts : parts 20.0 = .finite .positive (5 * 2 ^ 50) (-48) (by decide) := by rfl
    rw [value, hparts, value_of_positive]
    norm_num⟩

/-- An odd exponent that is only lowered, and an even one that is halved to five. -/
theorem power_product_tree_samples :
    (isNegligible (-1.1) = false ∧ Denotes 9.0 ((9 * 2 ^ 0 : ℕ) : ℚ) ∧
      power (-1.1) 9.0 = ⟨[], .ok (-2.357947691000002)⟩) ∧
    (isNegligible (-1.1) = false ∧ Denotes 20.0 ((5 * 2 ^ 2 : ℕ) : ℚ) ∧
      power (-1.1) 20.0 = ⟨[], .ok 6.727499949325612⟩) := by
  have hcounts : isNegligible (-1.1) = false := by decide
  have habs : Float.abs (-1.1) = 1.1 := by decide
  have hneg : (-1.1 : Float) < 0.0 := by decide
  have hodd : repeatedProduct 1.1 9 = 2.357947691000002 := by decide +kernel
  have heven : (fun x => x * x)^[2] (repeatedProduct 1.1 5) = 6.727499949325612 := by decide +kernel
  refine ⟨⟨hcounts, denotes_nine, ?_⟩, hcounts, denotes_twenty, ?_⟩
  · rw [(power_product_tree hcounts denotes_nine (.inl ⟨rfl, le_rfl⟩)).1, habs,
      if_pos ⟨hneg, by decide⟩, ← hodd]
    rfl
  · rw [(power_product_tree hcounts denotes_twenty (.inr ⟨by decide, le_rfl, by decide⟩)).1, habs,
      if_neg fun h => absurd h.2 (by decide), heven]

end Powers
end Trinomial.Number
