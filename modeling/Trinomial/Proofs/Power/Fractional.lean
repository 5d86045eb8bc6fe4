import Trinomial.Proofs.Power.Roots
import Trinomial.Proofs.Power.Signs

/-! # Powers with an exponent from minus one to one

The numbers on the way to such a power are powers with exponents below two, so it is a positive number
where the square of the base is neither negligible nor out of range. For other bases a root on the way may
be zero or not be found.
-/
set_option autoImplicit false

namespace Trinomial.Number

/-! ## Ranges that products and roots keep -/

/-- Bounds on a base: between them lies one, and their squares, nearly, are neither negligible nor out of
range. -/
structure Frame (m M : ℚ) : Prop where
  pos : 0 < m
  le_one : m ≤ 1
  one_le : 1 ≤ M
  counts : value tolerance ≤ 37 / 50 * m ^ 2
  range : 151 / 100 * M ^ 2 < rangeTop

/-- The number is finite and lies between the bounds. -/
structure Between (lo hi : ℚ) (x : Float) : Prop where
  finite : x.isFinite = true
  ge : lo ≤ value x
  le : value x ≤ hi

/-- Between the bounds of the base, nearly. -/
def Moderate (m M : ℚ) : Float → Prop := Between (3 / 4 * m) (3 / 2 * M)

/-- Between the squares of the bounds of the base, nearly. -/
def Rootable (m M : ℚ) : Float → Prop := Between (37 / 50 * m ^ 2) (151 / 100 * M ^ 2)

section Ranges
variable {m M : ℚ} {b v x r : Float}

theorem Rootable.counts (h : Rootable m M x) (hframe : Frame m M) : isNegligible x = false :=
  (counts_iff ⟨h.finite, rfl⟩).mpr (hframe.counts.trans (h.ge.trans (le_abs_self _)))

theorem Frame.root (hframe : Frame m M) (hx : Rootable m M x) (h : squareRoot x = .ok r) :
    Moderate m M r := by
  obtain ⟨hpos, hlo, hhi⟩ := root_bounds (hx.counts hframe) h
  have hm := hframe.pos
  have hM := hframe.one_le
  have hge := hx.ge
  have hle := hx.le
  have hm2 : 0 ≤ m ^ 2 := sq_nonneg m
  have hM2 : 1 ≤ M ^ 2 := one_le_pow₀ hM
  refine ⟨(finite_of_square_root h).2, ?_, ?_⟩
  · rw [← sq_le_sq₀ (by positivity) hpos.le, mul_pow]
    linarith
  · have hmax : max 1 (value x) ≤ 151 / 100 * M ^ 2 := max_le (by linarith) hle
    have hround : value tolerance * max 1 (value x) ≤ 1 / 2 ^ 30 * (151 / 100 * M ^ 2) :=
      mul_le_mul tolerance_value.2.le hmax (by positivity) (by positivity)
    rw [← sq_le_sq₀ hpos.le (by positivity), mul_pow]
    linarith

theorem Moderate.rootable (hframe : Frame m M) (hv : Moderate m M v) : Rootable m M v := by
  have hm := hframe.pos
  have hm1 := hframe.le_one
  have hM := hframe.one_le
  refine ⟨hv.finite, ?_, ?_⟩
  · have hge := hv.ge
    nlinarith
  · have hle := hv.le
    nlinarith

theorem Frame.base_rootable (hframe : Frame m M) (hb : Between m M b) : Rootable m M b := by
  have hm := hframe.pos
  have hM := hframe.one_le
  refine Moderate.rootable hframe ⟨hb.finite, ?_, ?_⟩
  · linarith [hb.ge]
  · linarith [hb.le]

theorem Frame.product (hframe : Frame m M) (hb : Between m M b) (hv : Moderate m M v) :
    Rootable m M (b * v) := by
  have hm := hframe.pos
  have hM := hframe.one_le
  have hlo : 3 / 4 * m ^ 2 ≤ value b * value v := by
    calc 3 / 4 * m ^ 2 = m * (3 / 4 * m) := by ring
      _ ≤ value b * value v := mul_le_mul hb.ge hv.ge (by positivity) (hm.le.trans hb.ge)
  have hhi : value b * value v ≤ 3 / 2 * M ^ 2 := by
    have hv0 : 0 ≤ value v := le_trans (by positivity) hv.ge
    calc value b * value v ≤ M * (3 / 2 * M) := mul_le_mul hb.le hv.le hv0 (by linarith)
      _ = 3 / 2 * M ^ 2 := by ring
  have hbottom : rangeBottom ≤ value b * value v := by
    refine range_bottom_le (k := -40) ?_ (by norm_num)
    have hsq : 0 ≤ m ^ 2 := sq_nonneg m
    linarith [hframe.counts, tolerance_value.1]
  have htop : value b * value v < rangeTop := by
    have hsq : 0 ≤ M ^ 2 := sq_nonneg M
    linarith [hframe.range]
  have hpos := range_bottom_pos.trans_le hbottom
  have hnearest := Denotes.mul ⟨hb.finite, rfl⟩ ⟨hv.finite, rfl⟩ (by rwa [abs_of_pos hpos])
  have herror := abs_le.mp (hnearest.error_le hbottom htop)
  refine ⟨hnearest.finite, ?_, ?_⟩
  · linarith
  · linarith

end Ranges

/-! ## Bases of moderate size -/

namespace Call
variable {c : Call} {x v : Float} {m M : ℚ}

theorem Low.power_range (h : c.Low) (hframe : Frame m M) (hb : Between m M c.base)
    (hr : Gives c (.ok v)) : Rootable m M v ∧ (value c.exponent < 1 → Moderate m M v) := by
  have hone : Moderate m M 1.0 := by
    refine ⟨by rfl, ?_, ?_⟩
    · rw [denotes_one.value_eq]
      linarith [hframe.le_one]
    · rw [denotes_one.value_eq]
      linarith [hframe.one_le]
  generalize hresult : Except.ok v = r at hr
  induction hr generalizing v with
  | direct hnested =>
    suffices hv : Moderate m M v from ⟨hv.rootable hframe, fun _ => hv⟩
    obtain ⟨-, hdirect⟩ | ⟨-, hdirect⟩ := h.last hnested
    · cases hresult.trans hdirect
      exact hone
    · exact hframe.root (hframe.base_rootable hb) (hresult.trans hdirect).symm
  | nested hnested _ ih =>
    obtain ⟨power, rfl, hv⟩ := bind_eq_ok.mp hresult.symm
    obtain ⟨hlow, hcases⟩ := h.cases hnested
    obtain ⟨hrootable, hmoderate⟩ := ih hlow (h.positive.nested_base hnested ▸ hb) rfl
    obtain ⟨hge, hinner, hanswer⟩ | ⟨-, hanswer⟩ := hcases
    · cases (hanswer power).symm.trans hv
      refine ⟨hframe.product hb (hmoderate ?_), fun hlt => absurd hlt (not_lt.mpr hge)⟩
      rw [hinner.value_eq]
      linarith [h.lt_two]
    · have hv := hframe.root hrootable ((hanswer power).symm.trans hv)
      exact ⟨hv.rootable hframe, fun _ => hv⟩

theorem Low.radicand_range (h : c.Low) (hframe : Frame m M) (hb : Between m M c.base)
    (hx : Radicand c x) : Rootable m M x := by
  induction hx with
  | last =>
    rw [h.positive.size_eq]
    exact hframe.base_rootable hb
  | doubled _ hnested hpower =>
    obtain ⟨hlow, -⟩ := h.cases hnested
    exact (hlow.power_range hframe (h.positive.nested_base hnested ▸ hb) hpower).1
  | nested hnested _ ih =>
    obtain ⟨hlow, -⟩ := h.cases hnested
    exact ih hlow (h.positive.nested_base hnested ▸ hb)

end Call

/-! ## Exponents from minus one to one -/

section Powers
open Call
variable {b e v : Float}

theorem low_call (hfinite : b.isFinite = true) (hb : tolerance ≤ b) (he : e.isFinite = true)
    (hlo : 0 ≤ value e) (hhi : value e ≤ 1) : Low ⟨b, e, tolerance⟩ :=
  ⟨positive_call (pos_of_tolerance_le hfinite hb) (counts_of_tolerance_le hfinite hb).2 he, hfinite, hlo,
    hhi.trans_lt one_lt_two⟩

/-- From exponent zero to one the power is ordinary if the numbers that it takes the root of are. -/
theorem power_ordinary (hfinite : b.isFinite = true) (hb : tolerance ≤ b) (he : e.isFinite = true)
    (hlo : 0 ≤ value e) (hhi : value e ≤ 1) (hall : ∀ x, Radicand ⟨b, e, tolerance⟩ x → Ordinary x) :
    ∃ v, (power b e).result = .ok v ∧ v.isFinite = true ∧ 2 ^ (-40 : ℤ) ≤ value v := by
  have hlow := low_call hfinite hb he hlo hhi
  rcases hhi.lt_or_eq with hlt | hone
  · obtain ⟨v, hv, hbounds⟩ := (hlow.outcome (power_gives b e)).ordinary hall
    obtain ⟨hvfinite, hge⟩ := hbounds hlt
    exact ⟨v, hv, hvfinite, le_trans (by norm_num) hge⟩
  · have hvalue := (counts_of_tolerance_le hfinite hb).1
    exact ⟨b, hlow.power_one hone (power_gives b e), hfinite, tolerance_value.1.trans hvalue⟩

theorem inverse_ordinary (hv : v.isFinite = true) (hlo : 2 ^ (-40 : ℤ) ≤ value v) :
    (1.0 / v).isFinite = true ∧ 0 < value (1.0 / v) := by
  have hunit : (0 : ℚ) < 2 ^ (-40 : ℤ) := by positivity
  have hpos : 0 < value v := hunit.trans_le hlo
  have hrange : |1 / value v| < rangeTop := by
    rw [abs_of_pos (by positivity)]
    exact lt_range_top_of_le ((one_div_le_one_div_of_le hunit hlo).trans (by norm_num))
  have hnearest := denotes_one.div ⟨hv, rfl⟩ hpos.ne' hrange
  obtain ⟨y, hy⟩ := exists_dyadic (k := 1) (e := -1025) (by norm_num) (by norm_num) (by norm_num)
  rw [Int.cast_one, one_mul] at hy
  have hsize : value v ≤ 2 ^ (1025 : ℤ) := by
    have hlt := value_lt hv
    have hsplit : (2 : ℚ) ^ (1025 : ℤ) = 2 ^ 4 * 2 ^ 1021 := by
      rw [← pow_add, ← zpow_natCast]
      rfl
    have htop : (0 : ℚ) < 2 ^ 1021 := by positivity
    rw [hsplit]
    generalize (2 : ℚ) ^ 1021 = top at hlt htop ⊢
    linarith
  refine ⟨hnearest.finite, lt_of_lt_of_le (by positivity) (hnearest.ge hy ?_)⟩
  rw [zpow_neg, ← one_div]
  exact one_div_le_one_div_of_le hpos hsize

/-- The inverse of a power takes the same roots as the power. -/
theorem radicand_opposite {x : Float} (hb : 0.0 < b) (hcounts : isNegligible b = false)
    (he : e.isFinite = true) (hle : tolerance ≤ e) :
    Radicand ⟨b, -e, tolerance⟩ x ↔ Radicand ⟨b, e, tolerance⟩ x := by
  obtain ⟨hnested, hneg⟩ := nested_opposite hb hcounts he hle
  rw [radicand_of_nested hnested]
  exact or_iff_right fun h => h.1.not_inverse hneg

/-- A finite exponent is negligible, or not below zero, or the opposite of one that counts. -/
theorem exponent_cases (he : e.isFinite = true) : isNegligible e = true ∨ 0 ≤ value e ∨
    ∃ f, e = -f ∧ f.isFinite = true ∧ tolerance ≤ f := by
  cases hnegligible : isNegligible e with
  | true => exact .inl rfl
  | false =>
    rcases le_or_gt 0 (value e) with hnonneg | hneg
    · exact .inr (.inl hnonneg)
    · refine .inr (.inr ⟨-e, (float_neg_neg e).symm, finite_neg he, ?_⟩)
      rw [counts_iff ⟨he, rfl⟩, abs_of_neg hneg] at hnegligible
      rwa [le_iff_value tolerance_finite (finite_neg he), value_neg]

/-- From exponent minus one to one the power is ordinary if the numbers that it takes the root of are. -/
theorem power_ordinary_of_radicands (hfinite : b.isFinite = true) (hb : tolerance ≤ b)
    (he : e.isFinite = true) (hlo : -1 ≤ value e) (hhi : value e ≤ 1)
    (hall : ∀ x, Radicand ⟨b, e, tolerance⟩ x → Ordinary x) :
    ∃ v, (power b e).result = .ok v ∧ v.isFinite = true ∧ 0.0 < v := by
  have hcounts := (counts_of_tolerance_le hfinite hb).2
  have hpos := pos_of_tolerance_le hfinite hb
  obtain hnegligible | hnonneg | ⟨f, rfl, hf, hle⟩ := exponent_cases he
  · have hpositive := positive_call hpos hcounts he
    refine ⟨1.0, ?_, by rfl, by decide⟩
    rw [power_of_settled (hpositive.settled_eq.trans hnegligible), hpositive.direct_eq, if_pos hnegligible]
  · obtain ⟨v, hv, hvfinite, hge⟩ := power_ordinary hfinite hb he hnonneg hhi hall
    exact ⟨v, hv, hvfinite, (zero_lt_iff_value hvfinite).mpr (lt_of_lt_of_le (by positivity) hge)⟩
  · have hf0 : 0 ≤ value f := tolerance_pos.le.trans (counts_of_tolerance_le hf hle).1
    rw [value_neg] at hlo
    obtain ⟨v, hv, hvfinite, hge⟩ := power_ordinary hfinite hb hf hf0 (by linarith)
      fun x hx => hall x ((radicand_opposite hpos hcounts hf hle).mpr hx)
    obtain ⟨hfinite', hpos'⟩ := inverse_ordinary hvfinite hge
    refine ⟨1.0 / v, ?_, hfinite', (zero_lt_iff_value hfinite').mpr hpos'⟩
    rw [power_opposite_exponent hpos hcounts hf hle, hv]
    rfl

/-- The numbers that the power of a base of moderate size takes the root of. -/
theorem radicands_ordinary {m M : ℚ} {x : Float} (hframe : Frame m M) (hfinite : b.isFinite = true)
    (hb : tolerance ≤ b) (hrange : Between m M b) (he : e.isFinite = true) (hlo : -1 ≤ value e)
    (hhi : value e ≤ 1) (hx : Radicand ⟨b, e, tolerance⟩ x) : Ordinary x := by
  have hcounts := (counts_of_tolerance_le hfinite hb).2
  have hpos := pos_of_tolerance_le hfinite hb
  suffices hrootable : Rootable m M x from ⟨hrootable.finite, hrootable.counts hframe⟩
  obtain hnegligible | hnonneg | ⟨f, rfl, hf, hle⟩ := exponent_cases he
  · have hopen := radicand_open hx
    rw [(positive_call hpos hcounts he).settled_eq, hnegligible] at hopen
    cases hopen
  · exact (low_call hfinite hb he hnonneg hhi).radicand_range hframe hrange hx
  · have hf0 : 0 ≤ value f := tolerance_pos.le.trans (counts_of_tolerance_le hf hle).1
    rw [value_neg] at hlo
    rw [radicand_opposite hpos hcounts hf hle] at hx
    exact (low_call hfinite hb hf hf0 (by linarith)).radicand_range hframe hrange hx

theorem frame_moderate : Frame (1 / 2 ^ 18) (2 ^ 511) := by
  refine ⟨by norm_num, by norm_num, one_le_pow₀ one_le_two, ?_, ?_⟩
  · rw [value, tolerance_parts, value_of_positive]
    norm_num
  · have htop : rangeTop = 2 * (2 ^ 511) ^ 2 := by
      rw [← pow_mul, rangeTop]
      exact pow_succ' 2 1022
    have hpos : (0 : ℚ) < (2 ^ 511) ^ 2 := by positivity
    rw [htop]
    generalize ((2 : ℚ) ^ 511) ^ 2 = square at hpos ⊢
    linarith

/-- A power with an exponent from minus one to one is a positive number where the base is of moderate size,
and everywhere else if no root on the way is taken of a number that is negligible or not finite. A
negligible one makes a power of exponent zero to one zero, and an infinite one does not converge. -/
theorem fractional_power_positive {b e : Float} (hfinite : b.isFinite = true) (hb : tolerance ≤ b)
    (hlo : -1.0 ≤ e) (hhi : e ≤ 1.0) :
    (1 / 2 ^ 18 ≤ value b → value b ≤ 2 ^ 511 →
      ∃ v, (power b e).result = .ok v ∧ v.isFinite = true ∧ 0.0 < v) ∧
    ((∀ x, Radicand ⟨b, e, tolerance⟩ x → x.isFinite = true ∧ isNegligible x = false) →
      ∃ v, (power b e).result = .ok v ∧ v.isFinite = true ∧ 0.0 < v) ∧
    (0.0 ≤ e →
      ((∃ x, Radicand ⟨b, e, tolerance⟩ x ∧ isNegligible x = true) → (power b e).result = .ok 0.0) ∧
      ((∃ x, Radicand ⟨b, e, tolerance⟩ x ∧ x.isFinite = false) →
        ∃ x n, (power b e).result = .error (.noConvergence x n))) := by
  have he : e.isFinite = true := finite_of_between (by rfl) denotes_one.finite hlo hhi
  have hdenotes : Denotes e (value e) := ⟨he, rfl⟩
  have hlo' : -1 ≤ value e := (denotes_one.neg.le_iff hdenotes).mp hlo
  have hhi' : value e ≤ 1 := (hdenotes.le_iff denotes_one).mp hhi
  refine ⟨fun hsmall hlarge => ?_, fun hall => ?_, fun hnonneg => ?_⟩
  · exact power_ordinary_of_radicands hfinite hb he hlo' hhi' fun x hx =>
      radicands_ordinary frame_moderate hfinite hb ⟨hfinite, hsmall, hlarge⟩ he hlo' hhi' hx
  · exact power_ordinary_of_radicands hfinite hb he hlo' hhi' fun x hx =>
      ⟨(hall x hx).1, (hall x hx).2⟩
  · have hlow := low_call hfinite hb he ((denotes_zero_point.le_iff hdenotes).mp hnonneg) hhi'
    have houtcome := hlow.outcome (power_gives b e)
    exact ⟨houtcome.zero, houtcome.diverges⟩

theorem inverse_root_of_two_positive :
    ((2.0 : Float).isFinite = true ∧ tolerance ≤ 2.0 ∧ -1.0 ≤ (-0.5 : Float) ∧ (-0.5 : Float) ≤ 1.0) ∧
    ∃ v, (power 2.0 (-0.5)).result = .ok v ∧ v.isFinite = true ∧ 0.0 < v := by
  have h : (2.0 : Float).isFinite = true ∧ tolerance ≤ 2.0 ∧ -1.0 ≤ (-0.5 : Float) ∧
      (-0.5 : Float) ≤ 1.0 := by decide
  refine ⟨h, (fractional_power_positive h.1 h.2.1 h.2.2.1 h.2.2.2).1 ?_ ?_⟩
  · rw [denotes_two.value_eq]
    norm_num
  · rw [denotes_two.value_eq]
    exact le_self_pow₀ one_le_two (by norm_num)

/-- The power with exponent one and a half on the way is negligible, so its root is zero. -/
theorem fractional_power_underflows :
    ((1e-9 : Float).isFinite = true ∧ tolerance ≤ 1e-9 ∧ -1.0 ≤ (0.75 : Float) ∧ (0.75 : Float) ≤ 1.0) ∧
    ¬∃ v, (power 1e-9 0.75).result = .ok v ∧ v.isFinite = true ∧ 0.0 < v := by
  refine ⟨by decide, ?_⟩
  have hzero : (power 1e-9 0.75).result = .ok 0.0 := by decide +kernel
  rw [hzero]
  rintro ⟨v, hv, -, hpos⟩
  cases hv
  exact absurd hpos (by decide)

end Powers
end Trinomial.Number
