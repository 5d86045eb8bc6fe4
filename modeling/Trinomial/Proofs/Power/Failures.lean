import Trinomial.Proofs.Power.Depth

/-! # How a power fails

Which failure a power has is settled by its outermost call. In the nested calls the base has no minus sign
and counts and the exponent is finite; all the powers that these come to, and so all the numbers they take
the root of, have no minus sign either, and what is left is a square root that does not converge.
-/
set_option autoImplicit false

namespace Trinomial.Number

/-- There is an answer, or a square root on the way to it did not converge. -/
def Computed (r : Except Failure Float) : Prop :=
  (∃ v, r = .ok v) ∨ ∃ x n, r = .error (.noConvergence x n)

/-- As `Computed`, and the answer has no minus sign. -/
def ComputedUnsigned (r : Except Failure Float) : Prop :=
  (∃ v, r = .ok v ∧ isNegative v = false) ∨ ∃ x n, r = .error (.noConvergence x n)

section Computed
variable {r : Except Failure Float} {x : Float}

theorem ComputedUnsigned.computed (h : ComputedUnsigned r) : Computed r :=
  h.imp (fun ⟨v, hv, _⟩ => ⟨v, hv⟩) id

theorem Computed.map (h : Computed r) (f : Float → Float) : Computed (r.map f) := by
  obtain ⟨v, rfl⟩ | ⟨x, n, rfl⟩ := h
  · exact .inl ⟨_, rfl⟩
  · exact .inr ⟨x, n, rfl⟩

theorem Computed.not_outside (h : Computed r) {fault : DomainFault} :
    r ≠ .error (.outsideDomain fault) := by
  obtain ⟨v, rfl⟩ | ⟨x, n, rfl⟩ := h <;> nofun

theorem Computed.not_zero_division (h : Computed r) {cause : ZeroDivision} :
    r ≠ .error (.zeroDivision cause) := by
  obtain ⟨v, rfl⟩ | ⟨x, n, rfl⟩ := h <;> nofun

theorem square_root_computed (hx : isNegative x = false) : ComputedUnsigned (squareRoot x) :=
  (square_root_outcome hx).imp (fun ⟨r, hr⟩ => ⟨r, hr, unsigned_square_root hr⟩) id

end Computed

namespace Call
variable {c inner : Call} {r : Except Failure Float} {x power : Float}

/-! ## Nested calls -/

theorem Positive.unsigned (h : c.Positive) : isNegative c.base = false :=
  unsigned_of_counts h.not_negative h.counts

theorem Positive.direct_computed (h : c.Positive) : ComputedUnsigned c.direct := by
  rw [h.direct_eq]
  split_ifs
  · exact .inl ⟨1.0, rfl, by decide⟩
  · exact square_root_computed h.unsigned

theorem Rule.answer_computed (h : Rule c inner) (hbase : isNegative c.base = false)
    (hpower : isNegative power = false) : ComputedUnsigned (c.answer power) := by
  have hone : isNegative 1.0 = false := by decide
  cases h with
  | inverse _ _ hanswer => exact .inl ⟨_, hanswer power, unsigned_div hone hpower⟩
  | halve _ _ hanswer => exact .inl ⟨_, hanswer power, unsigned_mul hpower hpower⟩
  | lower _ _ _ hanswer => exact .inl ⟨_, hanswer power, unsigned_mul hbase hpower⟩
  | double _ _ _ hanswer =>
    rw [hanswer power]
    exact square_root_computed hpower

theorem Positive.computed (h : c.Positive) (hr : Gives c r) : ComputedUnsigned r := by
  induction hr with
  | direct => exact h.direct_computed
  | nested hnested _ ih =>
    obtain ⟨v, rfl, hv⟩ | ⟨x, n, rfl⟩ := ih (h.nested_positive hnested)
    · exact (h.rule hnested).answer_computed h.unsigned hv
    · exact .inr ⟨x, n, rfl⟩

/-- The one call makes the other. -/
def Makes (c inner : Call) : Prop := c.nested = some inner

theorem positive_of_nested (h : c.nested = some inner) : inner.Positive := by
  have hopen := open_of_nested h
  exact (absolute_positive hopen).nested_positive ((absolute_nested hopen).trans h)

theorem positive_of_makes (h : Relation.TransGen Makes c inner) : inner.Positive := by
  cases h with
  | single hlast => exact positive_of_nested hlast
  | tail _ hlast => exact positive_of_nested hlast

/-! ## Square roots -/

/-- The exponent is reduced by a square root. -/
structure Fractional (c : Call) : Prop where
  opened : c.settled = false
  not_inverse : ¬c.exponent < 0.0
  not_lower : ¬c.exponent ≥ 1.0

/-- The call, or one of its nested calls, takes the square root of this number. -/
inductive Radicand : Call → Float → Prop where
  | last {c : Call} (h : c.Fractional) (hnested : c.nested = none) : Radicand c c.size
  | doubled {c inner : Call} {power : Float} (h : c.Fractional) (hnested : c.nested = some inner)
      (hpower : Gives inner (.ok power)) : Radicand c power
  | nested {c inner : Call} {x : Float} (hnested : c.nested = some inner) (h : Radicand inner x) :
      Radicand c x

theorem radicand_unsigned (h : Radicand c x) : isNegative x = false := by
  induction h with
  | last h => exact (absolute_positive h.opened).unsigned
  | doubled _ hnested hpower =>
    obtain ⟨v, hv, hunsigned⟩ | ⟨y, n, hfail⟩ := (positive_of_nested hnested).computed hpower
    · cases hv
      exact hunsigned
    · cases hfail
  | nested _ _ ih => exact ih

theorem computed_of_open (h : c.settled = false) (hr : Gives c r) : Computed r := by
  obtain ⟨r', hr', rfl⟩ := (gives_absolute h).mp hr
  exact ((absolute_positive h).computed hr').computed.map _

end Call

/-! ## The outermost call -/

/-- The exponent is not finite, or the power would be imaginary. -/
def OutsideDomain (base exponent : Float) : Prop :=
  exponent.isFinite = false ∨ base < 0.0 ∧ ¬∃ k : ℤ, Denotes exponent k

/-- The power of zero would be infinite. -/
def InverseOfZero (base exponent : Float) : Prop := isNegligible base = true ∧ exponent < 0.0

/-- The kind of a result of these arguments. -/
inductive Kind (base exponent : Float) : Except Failure Float → Prop where
  | outside (h : OutsideDomain base exponent) (fault : DomainFault) :
      Kind base exponent (.error (.outsideDomain fault))
  | zeroDivision (h : ¬OutsideDomain base exponent) (hinverse : InverseOfZero base exponent)
      (cause : ZeroDivision) : Kind base exponent (.error (.zeroDivision cause))
  | computed {r : Except Failure Float} (h : ¬OutsideDomain base exponent)
      (hinverse : ¬InverseOfZero base exponent) (hr : Computed r) : Kind base exponent r

section Kinds
variable {base exponent : Float}

theorem outside_domain_iff : OutsideDomain base exponent ↔
    (!exponent.isFinite) = true ∨ (decide (base < 0.0) && !isIntegral exponent) = true := by
  rw [OutsideDomain, Bool.not_eq_true']
  cases hfinite : exponent.isFinite with
  | false => exact ⟨fun _ => .inl rfl, fun _ => .inl rfl⟩
  | true =>
    have hinteger : isIntegral exponent = false ↔ ¬∃ k : ℤ, Denotes exponent k := by
      rw [← Bool.not_eq_true, is_integral_iff hfinite]
      exact not_congr (exists_congr fun k => ⟨(⟨hfinite, ·⟩), (·.value_eq)⟩)
    rw [Bool.and_eq_true, decide_eq_true_iff, Bool.not_eq_true', hinteger]

namespace Call
variable {c : Call} {r : Except Failure Float}

theorem is_negligible_size (c : Call) : isNegligible c.size = isNegligible c.base := by
  rw [size]
  split_ifs
  · exact is_negligible_neg c.base
  · rfl

/-- A call that does not reduce its exponent fails or answers one or zero. -/
theorem direct_cases (h : c.settled = true) :
    (OutsideDomain c.base c.exponent ∧ ∃ fault, c.direct = .error (.outsideDomain fault)) ∨
    (¬OutsideDomain c.base c.exponent ∧ InverseOfZero c.base c.exponent ∧
      ∃ cause, c.direct = .error (.zeroDivision cause)) ∨
    (¬OutsideDomain c.base c.exponent ∧ ¬InverseOfZero c.base c.exponent ∧
      ∃ v, c.direct = .ok v ∧ (v = 1.0 ∨ v = 0.0)) := by
  have hdomain : OutsideDomain c.base c.exponent ↔ _ := outside_domain_iff
  rw [direct]
  by_cases hfinite : (!c.exponent.isFinite) = true
  · rw [if_pos hfinite]
    exact .inl ⟨hdomain.mpr (.inl hfinite), _, rfl⟩
  by_cases himaginary : (decide (c.base < 0.0) && !isIntegral c.exponent) = true
  · rw [if_neg hfinite, if_pos himaginary]
    exact .inl ⟨hdomain.mpr (.inr himaginary), _, rfl⟩
  have hinside := mt hdomain.mp (not_or.mpr ⟨hfinite, himaginary⟩)
  rw [if_neg hfinite, if_neg himaginary]
  refine .inr ?_
  by_cases hzero : isNegligible c.size = true
  · rw [if_pos hzero]
    rw [is_negligible_size] at hzero
    by_cases hinverse : c.exponent < 0.0
    · rw [if_pos hinverse]
      exact .inl ⟨hinside, ⟨hzero, hinverse⟩, _, rfl⟩
    · rw [if_neg hinverse]
      exact .inr ⟨hinside, fun h => hinverse h.2, _, rfl, ite_eq_or_eq _ _ _⟩
  rw [if_neg hzero]
  by_cases hexponent : isNegligible c.exponent = true
  · rw [if_pos hexponent]
    rw [is_negligible_size] at hzero
    exact .inr ⟨hinside, fun h => hzero h.1, _, rfl, .inl rfl⟩
  · rw [settled, Bool.or_eq_true, Bool.or_eq_true, Bool.or_eq_true] at h
    exact absurd h (not_or.mpr ⟨not_or.mpr ⟨not_or.mpr ⟨hfinite, himaginary⟩, hzero⟩, hexponent⟩)

theorem kind (h : Gives c r) : Kind c.base c.exponent r := by
  cases hsettled : c.settled with
  | true =>
    rw [gives_settled hsettled h]
    obtain ⟨hout, fault, heq⟩ | ⟨hin, hinverse, cause, heq⟩ | ⟨hin, hinverse, v, heq, -⟩ :=
      direct_cases hsettled
    · exact heq ▸ .outside hout fault
    · exact heq ▸ .zeroDivision hin hinverse cause
    · exact heq ▸ .computed hin hinverse (.inl ⟨v, rfl⟩)
  | false =>
    obtain ⟨hfinite, himaginary, hcounts, -⟩ := counts_of_open hsettled
    rw [← Bool.not_eq_true] at hfinite himaginary
    rw [is_negligible_size] at hcounts
    refine .computed (mt outside_domain_iff.mp (not_or.mpr ⟨hfinite, himaginary⟩)) ?_
      (computed_of_open hsettled h)
    exact fun hinverse => Bool.true_eq_false_eq_False (hinverse.1.symm.trans hcounts)

end Call

theorem power_kind (base exponent : Float) : Kind base exponent (power base exponent).result :=
  Call.kind (power_gives base exponent)

/-- The kind of a failure depends on the arguments alone, and no nested call and no square root on the way
fails but by not converging. -/
theorem power_fails_by_arguments (base exponent : Float) :
    ((∃ fault, (power base exponent).result = .error (.outsideDomain fault)) ↔
      exponent.isFinite = false ∨ base < 0.0 ∧ ¬∃ k : ℤ, Denotes exponent k) ∧
    ((∃ cause, (power base exponent).result = .error (.zeroDivision cause)) ↔
      ¬OutsideDomain base exponent ∧ isNegligible base = true ∧ exponent < 0.0) ∧
    (Computed (power base exponent).result ↔
      ¬OutsideDomain base exponent ∧ ¬(isNegligible base = true ∧ exponent < 0.0)) ∧
    (∀ inner, Relation.TransGen Call.Makes ⟨base, exponent, tolerance⟩ inner → ∃ run,
      powerWithin powerDepth inner.base inner.exponent inner.epsilon = some run ∧
        Computed run.result) ∧
    (∀ x, Call.Radicand ⟨base, exponent, tolerance⟩ x → Computed (squareRoot x)) := by
  have hkind := power_kind base exponent
  generalize (power base exponent).result = r at hkind
  refine ⟨?_, ?_, ?_, fun inner hmakes => ?_, fun x hx => ?_⟩
  · change _ ↔ OutsideDomain base exponent
    cases hkind with
    | outside h fault => exact ⟨fun _ => h, fun _ => ⟨fault, rfl⟩⟩
    | zeroDivision h => exact ⟨fun ⟨_, hfault⟩ => (nomatch hfault), fun h' => absurd h' h⟩
    | computed h _ hr => exact ⟨fun ⟨_, hfault⟩ => absurd hfault hr.not_outside, fun h' => absurd h' h⟩
  · change _ ↔ _ ∧ InverseOfZero base exponent
    cases hkind with
    | outside h => exact ⟨fun ⟨_, hcause⟩ => (nomatch hcause), fun h' => absurd h h'.1⟩
    | zeroDivision h hinverse cause => exact ⟨fun _ => ⟨h, hinverse⟩, fun _ => ⟨cause, rfl⟩⟩
    | computed _ h hr =>
      exact ⟨fun ⟨_, hcause⟩ => absurd hcause hr.not_zero_division, fun h' => absurd h'.2 h⟩
  · change _ ↔ _ ∧ ¬InverseOfZero base exponent
    cases hkind with
    | outside h => exact ⟨fun hr => absurd rfl hr.not_outside, fun h' => absurd h h'.1⟩
    | zeroDivision h hinverse =>
      exact ⟨fun hr => absurd rfl hr.not_zero_division, fun h' => absurd hinverse h'.2⟩
    | computed h hinverse hr => exact ⟨fun _ => ⟨h, hinverse⟩, fun _ => hr⟩
  · obtain ⟨run, hrun, hgives⟩ := inner.exists_run
    exact ⟨run, hrun, ((Call.positive_of_makes hmakes).computed hgives).computed⟩
  · exact (square_root_computed (Call.radicand_unsigned hx)).computed

end Kinds
end Trinomial.Number
