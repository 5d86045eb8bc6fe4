import Trinomial.Proofs.Power.Failures

/-! # The square roots of a power

A power with an exponent from 0 on and below 2 is computed from roots and from products with the base.
A radicand that is negligible has root zero, which all later products and roots keep; one that is not
finite has no root. Otherwise each root is found and counts.
-/
set_option autoImplicit false

namespace Trinomial.Number

/-! ## Calls with an exponent below two -/

namespace Call
variable {c inner : Call} {r : Except Failure Float} {x : Float}

/-- The base is positive and finite, and the exponent is from 0 on and below 2. -/
structure Low (c : Call) : Prop where
  positive : c.Positive
  base_finite : c.base.isFinite = true
  nonneg : 0 ≤ value c.exponent
  lt_two : value c.exponent < 2

/-- How such a call uses its nested call: from 1 on it multiplies by the base, below 1 it takes the root. -/
theorem Low.cases (h : c.Low) (hnested : c.nested = some inner) :
    inner.Low ∧ ((1 ≤ value c.exponent ∧ Denotes inner.exponent (value c.exponent - 1) ∧
        ∀ power, c.answer power = .ok (c.base * power)) ∨
      (value c.exponent < 1 ∧ ∀ power, c.answer power = squareRoot power)) := by
  have hpositive := h.positive.nested_positive hnested
  have hbase := h.positive.nested_base hnested ▸ h.base_finite
  have hnonneg := h.nonneg
  have hlt := h.lt_two
  cases h.positive.rule hnested with
  | inverse hneg => exact absurd hneg (not_lt.mpr hnonneg)
  | halve hge => linarith
  | lower hge _ hinner hanswer =>
    refine ⟨⟨hpositive, hbase, ?_, ?_⟩, .inl ⟨hge, hinner, hanswer⟩⟩
    · rw [hinner.value_eq]
      linarith
    · rw [hinner.value_eq]
      linarith
  | double hge hone hinner hanswer =>
    refine ⟨⟨hpositive, hbase, ?_, ?_⟩, .inr ⟨hone, hanswer⟩⟩
    · rw [hinner.value_eq]
      linarith
    · rw [hinner.value_eq]
      linarith

theorem Low.fractional_iff (h : c.Low) :
    c.Fractional ↔ c.settled = false ∧ value c.exponent < 1 := by
  have hdenotes := h.positive.denotes
  have hone : c.exponent ≥ 1.0 ↔ 1 ≤ value c.exponent := denotes_one.le_iff hdenotes
  constructor
  · intro hfractional
    exact ⟨hfractional.opened, not_le.mp (mt hone.mpr hfractional.not_lower)⟩
  · rintro ⟨hopen, hlt⟩
    refine ⟨hopen, ?_, mt hone.mp (not_le.mpr hlt)⟩
    rw [hdenotes.lt_iff denotes_zero_point]
    exact not_lt.mpr h.nonneg

theorem fractional_of_last (hopen : c.settled = false) (hnested : c.nested = none) : c.Fractional := by
  have hbranch := branch hopen
  rw [hnested] at hbranch
  cases hbranch with
  | last hinverse _ hlower => exact ⟨hopen, hinverse, hlower⟩

theorem radicand_open (h : Radicand c x) : c.settled = false := by
  cases h with
  | last h => exact h.opened
  | doubled h => exact h.opened
  | nested hnested => exact open_of_nested hnested

theorem radicand_of_last (hnested : c.nested = none) : Radicand c x ↔ c.Fractional ∧ x = c.size := by
  constructor
  · intro h
    cases h with
    | last h => exact ⟨h, rfl⟩
    | doubled _ hsome => cases hnested.symm.trans hsome
    | nested hsome => cases hnested.symm.trans hsome
  · rintro ⟨h, rfl⟩
    exact .last h hnested

theorem radicand_of_nested (hnested : c.nested = some inner) :
    Radicand c x ↔ c.Fractional ∧ Gives inner (.ok x) ∨ Radicand inner x := by
  constructor
  · intro h
    cases h with
    | last _ hnone => cases hnone.symm.trans hnested
    | doubled h hsome hpower =>
      cases hsome.symm.trans hnested
      exact .inl ⟨h, hpower⟩
    | nested hsome h =>
      cases hsome.symm.trans hnested
      exact .inr h
  · rintro (⟨h, hpower⟩ | h)
    · exact .doubled h hnested hpower
    · exact .nested hnested h

/-- A call that makes no other one has exponent 0, nearly, or it takes the root of its base. -/
theorem Low.last (h : c.Low) (hnested : c.nested = none) :
    (c.settled = true ∧ c.direct = .ok 1.0) ∨ (c.Fractional ∧ c.direct = squareRoot c.base) := by
  have hdirect := h.positive.direct_eq
  rw [← h.positive.settled_eq] at hdirect
  cases hsettled : c.settled with
  | true => exact .inl ⟨rfl, by rw [hdirect, if_pos hsettled]⟩
  | false =>
    refine .inr ⟨fractional_of_last hsettled hnested, ?_⟩
    rw [hdirect, hsettled, if_neg Bool.false_ne_true]

/-! ## What a root on the way does -/

/-- The number is finite, and its root is not taken for zero. -/
structure Ordinary (x : Float) : Prop where
  finite : x.isFinite = true
  counts : isNegligible x = false

/-- The results of a call, by the numbers that it takes the root of. -/
structure Outcome (c : Call) (r : Except Failure Float) : Prop where
  ordinary : (∀ x, Radicand c x → Ordinary x) →
    ∃ v, r = .ok v ∧ (value c.exponent < 1 → v.isFinite = true ∧ 1 / 2 ^ 21 ≤ value v)
  zero : (∃ x, Radicand c x ∧ isNegligible x = true) → r = .ok 0.0
  diverges : (∃ x, Radicand c x ∧ x.isFinite = false) → ∃ x n, r = .error (.noConvergence x n)

theorem Low.direct_outcome (h : c.Low) (hnested : c.nested = none) : Outcome c c.direct := by
  have hbase : Ordinary c.base := ⟨h.base_finite, h.positive.counts⟩
  obtain ⟨hsettled, hdirect⟩ | ⟨hfractional, hdirect⟩ := h.last hnested
  · have hnone (x : Float) : ¬Radicand c x := by
      rw [radicand_of_last hnested, h.fractional_iff, hsettled]
      exact fun hx => Bool.noConfusion hx.1.1
    rw [hdirect]
    refine ⟨fun _ => ⟨1.0, rfl, fun _ => ⟨by rfl, ?_⟩⟩, ?_, ?_⟩
    · rw [denotes_one.value_eq]
      norm_num
    · exact fun ⟨x, hx, _⟩ => absurd hx (hnone x)
    · exact fun ⟨x, hx, _⟩ => absurd hx (hnone x)
  · have hradicand (x : Float) (hx : Radicand c x) : x = c.base := by
      rw [radicand_of_last hnested, h.positive.size_eq] at hx
      exact hx.2
    rw [hdirect]
    refine ⟨fun _ => ?_, fun ⟨x, hx, hzero⟩ => ?_, fun ⟨x, hx, hinfinite⟩ => ?_⟩
    · obtain ⟨v, hv, hbounds⟩ := square_root_finite h.positive.unsigned hbase.finite hbase.counts
      exact ⟨v, hv, fun _ => hbounds⟩
    · rw [hradicand x hx, hbase.counts] at hzero
      cases hzero
    · rw [hradicand x hx, hbase.finite] at hinfinite
      cases hinfinite

/-- A call that multiplies by the base takes no other root than its nested call. -/
theorem Outcome.lower (hinner : Outcome inner r) (h : c.Low) (hnested : c.nested = some inner)
    (hge : 1 ≤ value c.exponent) (hanswer : ∀ power, c.answer power = .ok (c.base * power)) :
    Outcome c (r >>= c.answer) := by
  have hradicand (x : Float) : Radicand c x ↔ Radicand inner x := by
    rw [radicand_of_nested hnested, h.fractional_iff]
    exact or_iff_right fun hx => absurd hx.1.2 (not_lt.mpr hge)
  refine ⟨fun hall => ?_, fun ⟨x, hx, hzero⟩ => ?_, fun ⟨x, hx, hinfinite⟩ => ?_⟩
  · obtain ⟨v, rfl, -⟩ := hinner.ordinary fun x hx => hall x ((hradicand x).mpr hx)
    exact ⟨c.base * v, hanswer v, fun hlt => absurd hlt (not_lt.mpr hge)⟩
  · rw [hinner.zero ⟨x, (hradicand x).mp hx, hzero⟩, ok_bind, hanswer,
      unsigned_mul_zero h.positive.unsigned h.base_finite]
  · obtain ⟨y, n, rfl⟩ := hinner.diverges ⟨x, (hradicand x).mp hx, hinfinite⟩
    exact ⟨y, n, rfl⟩

/-- A call that takes the root of the power takes the roots of its nested call before. -/
theorem Outcome.double (hinner : Outcome inner r) (h : c.Low) (hnested : c.nested = some inner)
    (hlt : value c.exponent < 1) (hanswer : ∀ power, c.answer power = squareRoot power)
    (hr : Gives inner r) : Outcome c (r >>= c.answer) := by
  have hfractional := h.fractional_iff.mpr ⟨open_of_nested hnested, hlt⟩
  have hunsigned (x : Float) (hx : Radicand c x) : isNegative x = false := radicand_unsigned hx
  have hradicand (x : Float) : Radicand c x ↔ r = .ok x ∨ Radicand inner x := by
    rw [radicand_of_nested hnested, and_iff_right hfractional]
    exact or_congr_left ⟨hr.unique, fun heq => heq ▸ hr⟩
  refine ⟨fun hall => ?_, fun ⟨x, hx, hzero⟩ => ?_, fun ⟨x, hx, hinfinite⟩ => ?_⟩
  · obtain ⟨power, rfl, -⟩ := hinner.ordinary fun x hx => hall x ((hradicand x).mpr (.inr hx))
    have hpower := (hradicand power).mpr (.inl rfl)
    obtain ⟨v, hv, hbounds⟩ := square_root_finite (hunsigned power hpower)
      (hall power hpower).finite (hall power hpower).counts
    exact ⟨v, (hanswer power).trans hv, fun _ => hbounds⟩
  · obtain rfl | hx := (hradicand x).mp hx
    · exact (hanswer x).trans (square_root_negligible hzero)
    · rw [hinner.zero ⟨x, hx, hzero⟩]
      exact (hanswer 0.0).trans (square_root_negligible (by decide))
  · obtain rfl | hx' := (hradicand x).mp hx
    · obtain ⟨y, n, hfail⟩ := square_root_infinite (hunsigned x hx) hinfinite
      exact ⟨y, n, (hanswer x).trans hfail⟩
    · obtain ⟨y, n, rfl⟩ := hinner.diverges ⟨x, hx', hinfinite⟩
      exact ⟨y, n, rfl⟩

theorem Low.outcome (h : c.Low) (hr : Gives c r) : Outcome c r := by
  induction hr with
  | direct hnested => exact h.direct_outcome hnested
  | nested hnested hinner ih =>
    obtain ⟨hlow, ⟨hge, -, hanswer⟩ | ⟨hlt, hanswer⟩⟩ := h.cases hnested
    · exact (ih hlow).lower h hnested hge hanswer
    · exact (ih hlow).double h hnested hlt hanswer hinner

/-- The power with exponent one is the base. -/
theorem Low.power_one (h : c.Low) (he : value c.exponent = 1) (hr : Gives c r) : r = .ok c.base := by
  have hlt : ¬value c.exponent < 1 := by
    rw [he]
    exact lt_irrefl 1
  have hopen : c.settled = false := by
    rw [h.positive.settled_eq]
    exact counts_of_one_le h.positive.denotes (by rw [he, abs_one])
  cases hnested : c.nested with
  | none => exact absurd (h.fractional_iff.mp (fractional_of_last hopen hnested)).2 hlt
  | some inner =>
    obtain ⟨r, hinner, rfl⟩ := (gives_nested hnested).mp hr
    obtain ⟨hlow, ⟨-, hzero, hanswer⟩ | ⟨hone, -⟩⟩ := h.cases hnested
    · rw [he, sub_self] at hzero
      have hsettled : inner.settled = true := by
        rw [hlow.positive.settled_eq, ← Bool.not_eq_false, counts_iff hzero, abs_zero]
        exact not_le.mpr tolerance_pos
      have hpower : inner.direct = .ok 1.0 := by
        rw [hlow.positive.direct_eq, ← hlow.positive.settled_eq, if_pos hsettled]
      rw [gives_settled hsettled hinner, hpower, ok_bind, hanswer, float_mul_one]
    · exact absurd hone hlt

end Call
end Trinomial.Number
