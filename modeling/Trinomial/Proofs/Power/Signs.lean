import Trinomial.Proofs.Power.Failures

/-! # Signs and inverses of powers

The sign of a negative base is taken out before the exponent is reduced and put back once, so a power of
the opposite base differs by a sign alone. The inverse of a power is one division more.
-/
set_option autoImplicit false

namespace Trinomial.Number
open Call

section Laws
variable {b e : Float} {r : Except Failure Float} {k : ℤ}

/-! ## Opposite bases -/

/-- The number, or its opposite where the exponent is odd. -/
def signedBy (k : ℤ) (v : Float) : Float := if Even k then v else -v

theorem negative_of_pos (h : 0.0 < b) : -b < 0.0 :=
  (neg_lt_zero_iff (is_nan_of_lt h).2).mpr h

theorem power_sign_mul (hb : 0.0 < b) (he : Denotes e k) (v : Float) :
    powerSign (-b) e * v = signedBy k v := by
  rw [powerSign, decide_eq_true (negative_of_pos hb), Bool.true_and, signedBy]
  by_cases heven : Even k
  · rw [if_pos heven, if_neg (mt (is_odd_iff he).mp (Int.not_odd_iff_even.mpr heven)), float_one_mul]
  · rw [if_neg heven, if_pos ((is_odd_iff he).mpr (Int.not_even_iff_odd.mp heven)), float_neg_one_mul]

/-- An integer that is negligible is zero. -/
theorem zero_of_negligible (he : Denotes e k) (h : isNegligible e = true) : k = 0 := by
  by_contra hk
  have hone : (1 : ℚ) ≤ |(k : ℚ)| := by exact_mod_cast Int.one_le_abs hk
  rw [counts_of_one_le he hone] at h
  cases h

theorem positive_call (hb : 0.0 < b) (hcounts : isNegligible b = false) (he : e.isFinite = true) :
    Positive ⟨b, e, tolerance⟩ := ⟨not_lt_of_lt hb, hcounts, he⟩

theorem power_of_settled {base exponent : Float}
    (h : settled ⟨base, exponent, tolerance⟩ = true) :
    (power base exponent).result = direct ⟨base, exponent, tolerance⟩ :=
  gives_settled h (power_gives base exponent)

theorem power_of_negligible_exponent {base : Float} (hcounts : isNegligible base = false)
    (he : Denotes e k) (hexponent : isNegligible e = true) : (power base e).result = .ok 1.0 := by
  have hintegral : (decide (base < 0.0) && !isIntegral e) = false := by
    rw [(is_integral_iff he.finite).mpr ⟨k, he.value_eq⟩, Bool.not_true, Bool.and_false]
  have hsettled : settled ⟨base, e, tolerance⟩ = true := by
    rw [settled, hexponent, Bool.or_true]
  have hsize : isNegligible (Call.size ⟨base, e, tolerance⟩) = false := by
    rw [is_negligible_size, hcounts]
  rw [power_of_settled hsettled, direct, he.finite, hintegral, hsize, hexponent, Bool.not_true,
    if_neg Bool.false_ne_true, if_neg Bool.false_ne_true, if_neg Bool.false_ne_true, if_pos rfl]

theorem opposite_call_open (hcounts : isNegligible b = false) (he : Denotes e k)
    (hexponent : isNegligible e = false) : settled ⟨-b, e, tolerance⟩ = false := by
  have hintegral : (decide (-b < 0.0) && !isIntegral e) = false := by
    rw [(is_integral_iff he.finite).mpr ⟨k, he.value_eq⟩, Bool.not_true, Bool.and_false]
  rw [settled, is_negligible_size, is_negligible_neg, hcounts, hexponent, hintegral, he.finite]
  rfl

/-- The power of the opposite base is the power, or its opposite where the exponent is odd. -/
theorem power_opposite_base (hb : 0.0 < b) (hcounts : isNegligible b = false) (he : Denotes e k) :
    (power (-b) e).result = (power b e).result.map (signedBy k) := by
  cases hexponent : isNegligible e with
  | true =>
    have hneg : isNegligible (-b) = false := by rw [is_negligible_neg, hcounts]
    rw [power_of_negligible_exponent hneg he hexponent, power_of_negligible_exponent hcounts he hexponent,
      zero_of_negligible he hexponent]
    rfl
  | false =>
    have habsolute : absolute ⟨-b, e, tolerance⟩ = ⟨b, e, tolerance⟩ := by
      rw [absolute, Call.size, if_pos (negative_of_pos hb), float_neg_neg]
    obtain ⟨r, hr, heq⟩ :=
      (gives_absolute (opposite_call_open hcounts he hexponent)).mp (power_gives (-b) e)
    rw [habsolute] at hr
    rw [heq, (power_gives b e).unique hr]
    exact congrArg (r.map ·) (funext (power_sign_mul hb he))

/-! ## Opposite exponents -/

theorem counts_of_tolerance_le (he : e.isFinite = true) (hle : tolerance ≤ e) :
    value tolerance ≤ value e ∧ isNegligible e = false := by
  rw [le_iff_value tolerance_finite he] at hle
  exact ⟨hle, (counts_iff ⟨he, rfl⟩).mpr (hle.trans (le_abs_self _))⟩

theorem pos_of_tolerance_le (he : e.isFinite = true) (hle : tolerance ≤ e) : 0.0 < e :=
  (zero_lt_iff_value he).mpr (tolerance_pos.trans_le (counts_of_tolerance_le he hle).1)

theorem nested_opposite (hb : 0.0 < b) (hcounts : isNegligible b = false) (he : e.isFinite = true)
    (hle : tolerance ≤ e) : nested ⟨b, -e, tolerance⟩ = some ⟨b, e, tolerance⟩ ∧ -e < 0.0 := by
  have hpositive := positive_call hb hcounts (finite_neg he)
  have hneg := negative_of_pos (pos_of_tolerance_le he hle)
  rw [nested, hpositive.settled_eq, is_negligible_neg, (counts_of_tolerance_le he hle).2,
    if_neg Bool.false_ne_true, if_pos hneg, hpositive.size_eq, float_neg_neg]
  exact ⟨rfl, hneg⟩

/-- The power with the opposite exponent is the inverse of the power. -/
theorem power_opposite_exponent (hb : 0.0 < b) (hcounts : isNegligible b = false)
    (he : e.isFinite = true) (hle : tolerance ≤ e) :
    (power b (-e)).result = (power b e).result.map (1.0 / ·) := by
  obtain ⟨hnested, hneg⟩ := nested_opposite hb hcounts he hle
  obtain ⟨r, hr, heq⟩ := (gives_nested hnested).mp (power_gives b (-e))
  rw [heq, (power_gives b e).unique hr]
  cases r with
  | error => rfl
  | ok v =>
    rw [ok_bind, answer, if_pos hneg, (positive_call hb hcounts (finite_neg he)).sign_eq]
    rfl

theorem signed_inverse (k : ℤ) (v : Float) : signedBy (-k) (1.0 / v) = 1.0 / signedBy k v := by
  rw [signedBy, signedBy]
  by_cases heven : Even k
  · rw [if_pos heven, if_pos heven.neg]
  · rw [if_neg heven, if_neg (mt even_neg.mp heven), float_div_neg]

theorem power_opposites (hb : 0.0 < b) (hcounts : isNegligible b = false) (he : Denotes e k)
    (hle : tolerance ≤ e) : (power (-b) (-e)).result = (power (-b) e).result.map (1.0 / ·) := by
  have hneg : Denotes (-e) ((-k : ℤ) : ℚ) := by
    rw [Int.cast_neg]
    exact he.neg
  rw [power_opposite_base hb hcounts hneg, power_opposite_base hb hcounts he,
    power_opposite_exponent hb hcounts he.finite hle]
  cases (power b e).result with
  | error => rfl
  | ok v => exact congrArg Except.ok (signed_inverse k v)

/-! ## Powers of a finite base -/

theorem Call.Positive.parts_base {c : Call} (h : c.Positive) (hfinite : c.base.isFinite = true) :
    ∃ s m e, ∃ hm : 0 < m, parts c.base = .finite s m e hm := by
  obtain ⟨hzero, -⟩ | ⟨hreg, hparts⟩ := finite_cases hfinite
  · have hcounts := h.counts
    rw [negligible_of_zero hzero] at hcounts
    cases hcounts
  · exact ⟨_, _, _, hreg.pos, hparts⟩

theorem Call.Rule.answer_not_nan {c inner : Call} {power v : Float} (h : Rule c inner)
    (hpositive : c.Positive) (hbase : c.base.isFinite = true) (hpower : power.isNaN = false)
    (hv : c.answer power = .ok v) : v.isNaN = false := by
  cases h with
  | inverse _ _ hanswer =>
    cases (hanswer power).symm.trans hv
    exact one_div_not_nan hpower
  | halve _ _ hanswer =>
    cases (hanswer power).symm.trans hv
    exact square_not_nan hpower
  | lower _ _ _ hanswer =>
    cases (hanswer power).symm.trans hv
    obtain ⟨s, m, e, hm, hparts⟩ := hpositive.parts_base hbase
    exact mul_not_nan hparts hpower
  | double _ _ _ hanswer =>
    exact is_nan_of_finite (finite_of_square_root ((hanswer power).symm.trans hv)).2

theorem Call.Positive.not_nan {c : Call} {v : Float} (h : c.Positive) (hbase : c.base.isFinite = true)
    (hr : Gives c (.ok v)) : v.isNaN = false := by
  generalize hresult : Except.ok v = r at hr
  induction hr generalizing v with
  | direct =>
    rw [h.direct_eq] at hresult
    split_ifs at hresult
    · cases hresult
      decide
    · exact is_nan_of_finite (finite_of_square_root hresult.symm).2
  | nested hnested _ ih =>
    obtain ⟨power, rfl, hv⟩ := bind_eq_ok.mp hresult.symm
    have hpower := ih (h.nested_positive hnested) (h.nested_base hnested ▸ hbase) rfl
    exact (h.rule hnested).answer_not_nan h hbase hpower hv

theorem power_not_negative {v : Float} (hb : 0.0 < b) (hfinite : b.isFinite = true)
    (hv : (power b e).result = .ok v) : ¬v < 0.0 ∧ v.isNaN = false := by
  cases hsettled : settled ⟨b, e, tolerance⟩ with
  | true =>
    rw [power_of_settled hsettled] at hv
    obtain ⟨-, _, heq⟩ | ⟨-, -, _, heq⟩ | ⟨-, -, w, heq, hw⟩ := direct_cases hsettled
    · cases heq.symm.trans hv
    · cases heq.symm.trans hv
    · cases heq.symm.trans hv
      obtain rfl | rfl := hw
      · exact ⟨by decide, by decide⟩
      · exact ⟨by decide, by decide⟩
  | false =>
    obtain ⟨he, -, hcounts, -⟩ := counts_of_open hsettled
    rw [is_negligible_size] at hcounts
    have hpositive := positive_call hb hcounts (by rwa [Bool.not_eq_false'] at he)
    have hgives := power_eq_iff.mp hv
    obtain ⟨w, hw, hunsigned⟩ | ⟨x, n, hfail⟩ := hpositive.computed hgives
    · cases hw
      exact ⟨not_lt_zero_of_unsigned hunsigned, hpositive.not_nan hfinite hgives⟩
    · cases hfail

/-- Signs and inverses of the powers of a positive base and of its opposite. -/
theorem power_signs (b : Float) (hb : 0.0 < b) :
    (isNegligible b = false →
      (∀ n, ∀ k : ℤ, Denotes n k → Computed (power b n).result ∧
        (power (-b) n).result = (power b n).result.map fun v => if Even k then v else -v) ∧
      (∀ e, e.isFinite = true → tolerance ≤ e →
        (power b (-e)).result = (power b e).result.map (1.0 / ·)) ∧
      (∀ e, ∀ k : ℤ, Denotes e k → tolerance ≤ e →
        (power (-b) (-e)).result = (power (-b) e).result.map (1.0 / ·))) ∧
    (b.isFinite = true → ∀ e v, (power b e).result = .ok v → ¬v < 0.0 ∧ v.isNaN = false) := by
  refine ⟨fun hcounts => ⟨fun n k hn => ⟨?_, ?_⟩, fun e => ?_, fun e k => ?_⟩, fun hfinite e v => ?_⟩
  · exact ((positive_call hb hcounts hn.finite).computed (power_gives b n)).computed
  · exact power_opposite_base hb hcounts hn
  · exact power_opposite_exponent hb hcounts
  · exact power_opposites hb hcounts
  · exact power_not_negative hb hfinite

theorem denotes_three : Denotes 3.0 ((3 : ℤ) : ℚ) :=
  ⟨by rfl, by
    have hparts : parts 3.0 = .finite .positive (3 * 2 ^ 51) (-51) (by decide) := by rfl
    rw [value, hparts, value_of_positive]
    norm_num⟩

theorem power_signs_two : (0.0 : Float) < 2.0 ∧ (power 2.0 3.0).result = .ok 8.0 ∧
    (power (-2.0) 3.0).result = .ok (-8.0) ∧ (power (-2.0) (-3.0)).result = .ok (-0.125) := by
  have hb : (0.0 : Float) < 2.0 := by decide
  obtain ⟨hlaws, -⟩ := power_signs 2.0 hb
  obtain ⟨hbase, -, hinverse⟩ := hlaws (by decide)
  have hpower : (power 2.0 3.0).result = .ok 8.0 := by decide +kernel
  have hopposite : (power (-2.0) 3.0).result = .ok (-8.0) := by
    rw [(hbase 3.0 3 denotes_three).2, hpower]
    decide
  refine ⟨hb, hpower, hopposite, ?_⟩
  rw [hinverse 3.0 3 denotes_three (by decide), hopposite]
  decide

end Laws
end Trinomial.Number
