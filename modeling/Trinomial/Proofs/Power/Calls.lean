import Trinomial.Power
import Trinomial.Proofs.Number.Unsigned

/-! # The calls of a power

A call makes at most one other call, which its own arguments determine, and computes its answer from the
answer of that call. All calls but the first have a base that is neither negative nor negligible.
-/
set_option autoImplicit false

namespace Trinomial.Number

/-! ## Reduced exponents -/

section Exponents
variable {x : Float} {q : ℚ}

theorem denotes_ten : Denotes 10.0 10 :=
  ⟨by rfl, by
    have hparts : parts 10.0 = .finite .positive (5 * 2 ^ 50) (-49) (by decide) := by rfl
    rw [value, hparts, value_of_positive]
    norm_num⟩

/-- A number from 1 to 10 in units of its last place, which is at most three places above the one of 1. -/
theorem Denotes.units (h : Denotes x q) (hlo : 1 ≤ q) (hhi : q < 10) :
    ∃ (k : ℕ) (j : ℤ), k < 4 ∧ j < 2 ^ 53 ∧ q = j * 2 ^ ((k : ℤ) - 52) := by
  have hpos : 0 < q := by linarith
  have hlog : 0 ≤ Int.log 2 q := by
    rw [← Int.zpow_le_iff_le_log (by norm_num) hpos]
    exact_mod_cast hlo
  have hlog' : Int.log 2 q < 4 := by
    rw [← Int.lt_zpow_iff_log_lt (by norm_num) hpos]
    exact hhi.trans (by norm_num)
  obtain ⟨j, hj⟩ := h.dyadic (Int.zpow_log_le_self (by norm_num) hpos)
  have hlt := Int.lt_zpow_succ_log_self (b := 2) (by norm_num) q
  obtain ⟨k, hk⟩ := Int.eq_ofNat_of_zero_le hlog
  rw [hk] at hj hlt hlog'
  refine ⟨k, j, by omega, ?_, hj⟩
  have hunit : (0 : ℚ) < 2 ^ ((k : ℤ) - 52) := by positivity
  have hsplit : (2 : ℚ) ^ ((k : ℤ) + 1) = (2 ^ 53 : ℤ) * 2 ^ ((k : ℤ) - 52) := by
    rw [Int.cast_pow, Int.cast_ofNat, ← zpow_natCast, ← zpow_add₀ (by norm_num)]
    congr 1
    omega
  rw [Nat.cast_ofNat, hsplit, hj, mul_lt_mul_iff_left₀ hunit] at hlt
  exact_mod_cast hlt

theorem one_in_units {k : ℕ} (hk : k < 4) : ((2 ^ (52 - k) : ℤ) : ℚ) * 2 ^ ((k : ℤ) - 52) = 1 := by
  have hexp : ((52 - k : ℕ) : ℤ) + (k - 52) = 0 := by omega
  rw [Int.cast_pow, Int.cast_ofNat, ← zpow_natCast, ← zpow_add₀ (by norm_num), hexp, zpow_zero]

/-- Lowered by one, a number from 1 to 10 stays exact. -/
theorem denotes_lowered (h : Denotes x q) (hlo : 1 ≤ q) (hhi : q < 10) :
    Denotes (x - 1.0) (q - 1) := by
  obtain ⟨k, j, hk, hhigh, hj⟩ := h.units hlo hhi
  have hone := one_in_units hk
  have hlow : (2 ^ (52 - k) : ℤ) ≤ j := by
    have hunit : (0 : ℚ) < 2 ^ ((k : ℤ) - 52) := by positivity
    rw [hj, ← hone, mul_le_mul_iff_left₀ hunit] at hlo
    exact_mod_cast hlo
  have hdiff : q - 1 = (j - 2 ^ (52 - k) : ℤ) * 2 ^ ((k : ℤ) - 52) := by
    rw [Int.cast_sub, sub_mul, hone, ← hj]
  have hfits : |j - 2 ^ (52 - k)| ≤ 2 ^ 53 := by
    have hnonneg : (0 : ℤ) ≤ 2 ^ (52 - k) := by positivity
    rw [abs_of_nonneg (by omega)]
    omega
  obtain ⟨y, hy⟩ := exists_dyadic hfits (e := (k : ℤ) - 52) (by omega) (by omega)
  have hrange : |q - 1| < rangeTop := lt_range_top_of_le (by rw [abs_of_nonneg] <;> linarith)
  exact (h.sub denotes_one hrange).exact (hdiff ▸ hy)

theorem denotes_doubled (h : Denotes x q) (hlo : rangeBottom ≤ q) (hhi : 2 * q < rangeTop) :
    Denotes (x * 2.0) (2 * q) := by
  obtain ⟨y, hy⟩ := h.exists_double hlo hhi.le
  have hpos := lt_of_lt_of_le range_bottom_pos hlo
  have hrange : |q * 2| < rangeTop := by rwa [mul_comm, abs_of_pos (by linarith)]
  rw [mul_comm] at hy ⊢
  exact (h.mul denotes_two hrange).exact hy

end Exponents

/-! ## One call -/

/-- What one call of `powerWithin` works on. -/
structure Call where
  base : Float
  exponent : Float
  epsilon : Float

namespace Call

/-- The result of the call with at most `depth` nested calls. -/
def result (depth : ℕ) (c : Call) : Option (Except Failure Float) :=
  (powerWithin depth c.base c.exponent c.epsilon).map Traced.result

def size (c : Call) : Float := if c.base < 0.0 then -c.base else c.base

def sign (c : Call) : Float := powerSign c.base c.exponent

/-- The call is answered before its exponent is reduced. -/
def settled (c : Call) : Bool :=
  !c.exponent.isFinite || c.base < 0.0 && !isIntegral c.exponent || isNegligible c.size ||
    isNegligible c.exponent

/-- The answer of a call that makes no other call. -/
def direct (c : Call) : Except Failure Float :=
  if !c.exponent.isFinite then .error (.outsideDomain (.exponentNotFinite c.exponent))
  else if c.base < 0.0 && !isIntegral c.exponent then
    .error (.outsideDomain (.imaginaryPower c.base c.exponent))
  else if isNegligible c.size then
    if c.exponent < 0.0 then .error (.zeroDivision (.powerOfZero c.exponent))
    else .ok (if isNegligible c.exponent then 1.0 else 0.0)
  else if isNegligible c.exponent then .ok 1.0
  else (squareRoot c.size).map (c.sign * ·)

/-- The call that a call makes, if it makes one. -/
def nested (c : Call) : Option Call :=
  if c.settled then none
  else if c.exponent < 0.0 then some ⟨c.size, -c.exponent, c.epsilon⟩
  else if c.exponent ≥ 10.0 then some ⟨c.size, c.exponent / 2.0, c.epsilon / 2.0⟩
  else if c.exponent ≥ 1.0 then some ⟨c.size, c.exponent - 1.0, c.epsilon⟩
  else if c.epsilon ≥ 1.0 then none
  else some ⟨c.size, c.exponent * 2.0, c.epsilon * 2.0⟩

/-- The answer of a call, from the power that its nested call comes to. -/
def answer (c : Call) (power : Float) : Except Failure Float :=
  if c.exponent < 0.0 then .ok (c.sign / power)
  else if c.exponent ≥ 10.0 then .ok (c.sign * square power)
  else if c.exponent ≥ 1.0 then .ok (c.sign * c.size * power)
  else (squareRoot power).map (c.sign * ·)

section Equations
variable {c inner : Call}

/-- A settled call notes nothing. -/
theorem power_within_settled (h : c.settled = true) (depth : ℕ) :
    powerWithin (depth + 1) c.base c.exponent c.epsilon = some (.ofResult c.direct) := by
  rw [settled] at h
  rw [powerWithin, direct]
  dsimp only
  rw [← size]
  by_cases hfinite : (!c.exponent.isFinite) = true
  · rw [if_pos hfinite, if_pos hfinite]
    rfl
  by_cases himaginary : (decide (c.base < 0.0) && !isIntegral c.exponent) = true
  · rw [if_neg hfinite, if_neg hfinite, if_pos himaginary, if_pos himaginary]
    rfl
  rw [if_neg hfinite, if_neg hfinite, if_neg himaginary, if_neg himaginary]
  by_cases hnegligible : isNegligible c.size = true
  · rw [if_pos hnegligible, if_pos hnegligible]
    by_cases hinverse : c.exponent < 0.0
    · rw [if_pos hinverse, if_pos hinverse]
      rfl
    · rw [if_neg hinverse, if_neg hinverse]
      rfl
  rw [if_neg hnegligible, if_neg hnegligible]
  by_cases hexponent : isNegligible c.exponent = true
  · rw [if_pos hexponent, if_pos hexponent]
    rfl
  · rw [Bool.not_eq_true] at hfinite himaginary hnegligible hexponent
    rw [hfinite, himaginary, hnegligible, hexponent] at h
    cases h

theorem result_settled (h : c.settled = true) (depth : ℕ) : c.result (depth + 1) = some c.direct := by
  rw [result, power_within_settled h]
  rfl

theorem counts_of_open (h : c.settled = false) : (!c.exponent.isFinite) = false ∧
    (c.base < 0.0 && !isIntegral c.exponent) = false ∧ isNegligible c.size = false ∧
    isNegligible c.exponent = false := by
  rw [settled, Bool.or_eq_false_iff, Bool.or_eq_false_iff, Bool.or_eq_false_iff] at h
  exact ⟨h.1.1.1, h.1.1.2, h.1.2, h.2⟩

theorem open_of_nested (h : c.nested = some inner) : c.settled = false := by
  cases hsettled : c.settled with
  | false => rfl
  | true =>
    rw [nested, if_pos hsettled] at h
    cases h

/-- The part of a call that reduces the exponent. -/
theorem power_within_open (h : c.settled = false) (depth : ℕ) :
    powerWithin (depth + 1) c.base c.exponent c.epsilon =
    if c.exponent < 0.0 then
      (powerWithin depth c.size (-c.exponent) c.epsilon).map fun power => do
        return c.sign / (← power)
    else if c.exponent ≥ 10.0 then
      (powerWithin depth c.size (c.exponent / 2.0) (c.epsilon / 2.0)).map fun power => do
        return c.sign * square (← power)
    else if c.exponent ≥ 1.0 then
      (powerWithin depth c.size (c.exponent - 1.0) c.epsilon).map fun power => do
        return c.sign * c.size * (← power)
    else if c.epsilon ≥ 1.0 then
      some do
        Traced.note (.fractionalPower c.size c.exponent c.epsilon)
        return c.sign * (← Traced.ofResult (squareRoot c.size))
    else
      (powerWithin depth c.size (c.exponent * 2.0) (c.epsilon * 2.0)).map fun power => do
        Traced.note (.fractionalPower c.size c.exponent c.epsilon)
        return c.sign * (← Traced.ofResult (squareRoot (← power))) := by
  obtain ⟨hfinite, himaginary, hnegligible, hexponent⟩ := counts_of_open h
  rw [powerWithin, hfinite, himaginary, if_neg Bool.false_ne_true, if_neg Bool.false_ne_true]
  dsimp only
  rw [← size, hnegligible, hexponent, if_neg Bool.false_ne_true, if_neg Bool.false_ne_true, sign]

theorem direct_open (h : c.settled = false) : c.direct = (squareRoot c.size).map (c.sign * ·) := by
  obtain ⟨hfinite, himaginary, hnegligible, hexponent⟩ := counts_of_open h
  rw [direct, hfinite, himaginary, hnegligible, hexponent, if_neg Bool.false_ne_true,
    if_neg Bool.false_ne_true, if_neg Bool.false_ne_true, if_neg Bool.false_ne_true]

/-- How a call reduces its exponent: the guards, and what they make of the nested call and of its answer. -/
inductive Branch (c : Call) : Option Call → Prop where
  | inverse (h : c.exponent < 0.0) (hanswer : ∀ power, c.answer power = .ok (c.sign / power)) :
      Branch c (some ⟨c.size, -c.exponent, c.epsilon⟩)
  | halve (h : ¬c.exponent < 0.0) (hhalve : c.exponent ≥ 10.0)
      (hanswer : ∀ power, c.answer power = .ok (c.sign * square power)) :
      Branch c (some ⟨c.size, c.exponent / 2.0, c.epsilon / 2.0⟩)
  | lower (h : ¬c.exponent < 0.0) (hhalve : ¬c.exponent ≥ 10.0) (hlower : c.exponent ≥ 1.0)
      (hanswer : ∀ power, c.answer power = .ok (c.sign * c.size * power)) :
      Branch c (some ⟨c.size, c.exponent - 1.0, c.epsilon⟩)
  | last (h : ¬c.exponent < 0.0) (hhalve : ¬c.exponent ≥ 10.0) (hlower : ¬c.exponent ≥ 1.0)
      (hlast : c.epsilon ≥ 1.0) : Branch c none
  | double (h : ¬c.exponent < 0.0) (hhalve : ¬c.exponent ≥ 10.0) (hlower : ¬c.exponent ≥ 1.0)
      (hlast : ¬c.epsilon ≥ 1.0)
      (hanswer : ∀ power, c.answer power = (squareRoot power).map (c.sign * ·)) :
      Branch c (some ⟨c.size, c.exponent * 2.0, c.epsilon * 2.0⟩)

theorem branch (h : c.settled = false) : Branch c c.nested := by
  rw [nested, h, if_neg Bool.false_ne_true]
  by_cases hinverse : c.exponent < 0.0
  · rw [if_pos hinverse]
    exact .inverse hinverse fun power => if_pos hinverse
  rw [if_neg hinverse]
  by_cases hhalve : c.exponent ≥ 10.0
  · rw [if_pos hhalve]
    exact .halve hinverse hhalve fun power => by rw [answer, if_neg hinverse, if_pos hhalve]
  rw [if_neg hhalve]
  by_cases hlower : c.exponent ≥ 1.0
  · rw [if_pos hlower]
    refine .lower hinverse hhalve hlower fun power => ?_
    rw [answer, if_neg hinverse, if_neg hhalve, if_pos hlower]
  rw [if_neg hlower]
  by_cases hlast : c.epsilon ≥ 1.0
  · rw [if_pos hlast]
    exact .last hinverse hhalve hlower hlast
  · rw [if_neg hlast]
    refine .double hinverse hhalve hlower hlast fun power => ?_
    rw [answer, if_neg hinverse, if_neg hhalve, if_neg hlower]

theorem branch_of_nested (h : c.nested = some inner) : Branch c (some inner) :=
  h ▸ branch (open_of_nested h)

theorem map_result {p : Option (Traced Float)} {f : Traced Float → Traced Float}
    {g : Float → Except Failure Float} (hf : ∀ power, (f power).result = power.result >>= g) :
    (p.map f).map Traced.result = (p.map Traced.result).map (· >>= g) := by
  rw [Option.map_map, Option.map_map]
  exact congrArg (Option.map · p) (funext hf)

/-- One call, by the call that it makes. -/
theorem result_succ (c : Call) (depth : ℕ) :
    c.result (depth + 1) = match c.nested with
      | none => some c.direct
      | some inner => (inner.result depth).map (· >>= c.answer) := by
  cases h : c.settled with
  | true => rw [result_settled h, nested, h, if_pos rfl]
  | false =>
    have hbranch := branch h
    rw [result, power_within_open h]
    generalize c.nested = inner at hbranch ⊢
    cases hbranch with
    | inverse hinverse hanswer =>
      rw [if_pos hinverse, funext hanswer]
      exact map_result fun power => Traced.result_bind ..
    | halve hinverse hhalve hanswer =>
      rw [if_neg hinverse, if_pos hhalve, funext hanswer]
      exact map_result fun power => Traced.result_bind ..
    | lower hinverse hhalve hlower hanswer =>
      rw [if_neg hinverse, if_neg hhalve, if_pos hlower, funext hanswer]
      exact map_result fun power => Traced.result_bind ..
    | last hinverse hhalve hlower hlast =>
      rw [if_neg hinverse, if_neg hhalve, if_neg hlower, if_pos hlast, direct_open h]
      refine congrArg some ?_
      rw [Traced.result_bind, Traced.result_bind, Traced.result_ofResult]
      rfl
    | double hinverse hhalve hlower hlast hanswer =>
      rw [if_neg hinverse, if_neg hhalve, if_neg hlower, if_neg hlast, funext hanswer]
      refine map_result fun power => ?_
      rw [Traced.result_bind, Traced.result_bind]
      refine congrArg (power.result >>= ·) (funext fun v => ?_)
      rw [Traced.result_bind, Traced.result_ofResult]
      rfl

end Equations

/-! ## All calls -/

/-- The result of the call, with as many nested calls as it takes. -/
inductive Gives : Call → Except Failure Float → Prop where
  | direct {c : Call} (h : c.nested = none) : Gives c c.direct
  | nested {c inner : Call} {r : Except Failure Float} (h : c.nested = some inner)
      (hinner : Gives inner r) : Gives c (r >>= c.answer)

section Gives
variable {c inner : Call} {depth : ℕ} {r r' : Except Failure Float}

theorem gives_of_result (h : c.result depth = some r) : Gives c r := by
  induction depth generalizing c r with
  | zero => cases h
  | succ depth ih =>
    rw [result_succ] at h
    cases hnested : c.nested with
    | none =>
      rw [hnested] at h
      cases h
      exact .direct hnested
    | some inner =>
      rw [hnested] at h
      obtain ⟨r', hr', rfl⟩ := Option.map_eq_some_iff.mp h
      exact .nested hnested (ih hr')

theorem Gives.unique (h : Gives c r) (h' : Gives c r') : r = r' := by
  induction h generalizing r' with
  | direct hnested =>
    cases h' with
    | direct => rfl
    | nested hsome => cases hnested.symm.trans hsome
  | nested hnested _ ih =>
    cases h' with
    | direct hnone => cases hnone.symm.trans hnested
    | nested hnested' hinner =>
      cases hnested.symm.trans hnested'
      rw [ih hinner]

theorem gives_settled (h : c.settled = true) (hr : Gives c r) : r = c.direct :=
  hr.unique (gives_of_result (result_settled h 0))

/-- The result of a call is the answer to the result of its nested call. -/
theorem gives_nested (h : c.nested = some inner) :
    Gives c r ↔ ∃ r', Gives inner r' ∧ r = r' >>= c.answer := by
  constructor
  · intro hgives
    cases hgives with
    | direct hnone => cases h.symm.trans hnone
    | nested hnested hinner =>
      cases h.symm.trans hnested
      exact ⟨_, hinner, rfl⟩
  · rintro ⟨r', hinner, rfl⟩
    exact .nested h hinner

/-- The call has a result within this number of calls. -/
def Ends (depth : ℕ) (c : Call) : Prop := ∃ r, c.result depth = some r

theorem ends_succ : c.Ends (depth + 1) ↔ ∀ inner, c.nested = some inner → inner.Ends depth := by
  rw [Ends, result_succ]
  cases c.nested with
  | none => exact ⟨fun _ _ h => (Option.some_ne_none _ h.symm).elim, fun _ => ⟨_, rfl⟩⟩
  | some inner =>
    constructor
    · rintro ⟨_, h⟩ _ ⟨⟩
      obtain ⟨r, hr, -⟩ := Option.map_eq_some_iff.mp h
      exact ⟨r, hr⟩
    · intro h
      obtain ⟨r, hr⟩ := h inner rfl
      exact ⟨_, Option.map_eq_some_iff.mpr ⟨r, hr, rfl⟩⟩

theorem Ends.mono (h : c.Ends depth) {depth' : ℕ} (hle : depth ≤ depth') : c.Ends depth' := by
  induction depth generalizing c depth' with
  | zero => cases h.choose_spec
  | succ depth ih =>
    obtain ⟨d, rfl⟩ := Nat.exists_eq_add_of_le' (Nat.one_le_of_lt hle)
    rw [ends_succ] at h ⊢
    exact fun inner hinner => ih (h inner hinner) (Nat.le_of_succ_le_succ hle)

end Gives

/-! ## Calls with a positive base -/

/-- The base is neither below zero nor negligible, and the exponent is finite. -/
structure Positive (c : Call) : Prop where
  not_negative : ¬c.base < 0.0
  counts : isNegligible c.base = false
  finite : c.exponent.isFinite = true

/-- The rule by which a call with a positive base uses its nested call. -/
inductive Rule (c inner : Call) : Prop where
  | inverse (h : value c.exponent < 0) (hinner : Denotes inner.exponent (-value c.exponent))
      (hanswer : ∀ power, c.answer power = .ok (1.0 / power))
  | halve (h : 10 ≤ value c.exponent) (hinner : Denotes inner.exponent (value c.exponent / 2))
      (hanswer : ∀ power, c.answer power = .ok (square power))
  | lower (h : 1 ≤ value c.exponent) (h' : value c.exponent < 10)
      (hinner : Denotes inner.exponent (value c.exponent - 1))
      (hanswer : ∀ power, c.answer power = .ok (c.base * power))
  | double (h : value tolerance ≤ value c.exponent) (h' : value c.exponent < 1)
      (hinner : Denotes inner.exponent (2 * value c.exponent))
      (hanswer : ∀ power, c.answer power = squareRoot power)

namespace Positive
variable {c inner : Call}

theorem size_eq (h : c.Positive) : c.size = c.base := if_neg h.not_negative

theorem sign_eq (h : c.Positive) : c.sign = 1.0 := by
  rw [sign, powerSign, decide_eq_false h.not_negative, Bool.false_and, if_neg Bool.false_ne_true]

theorem settled_eq (h : c.Positive) : c.settled = isNegligible c.exponent := by
  rw [settled, h.finite, decide_eq_false h.not_negative, h.size_eq, h.counts, Bool.not_true,
    Bool.false_and, Bool.or_self, Bool.false_or, Bool.false_or]

theorem map_sign (h : c.Positive) (x : Except Failure Float) : x.map (c.sign * ·) = x := by
  have hsign : (c.sign * ·) = (id : Float → Float) := funext fun y => by
    rw [h.sign_eq, float_one_mul, id]
  rw [hsign]
  cases x <;> rfl

theorem direct_eq (h : c.Positive) :
    c.direct = if isNegligible c.exponent then .ok 1.0 else squareRoot c.base := by
  rw [direct, h.finite, decide_eq_false h.not_negative, h.size_eq, h.counts, h.map_sign, Bool.not_true,
    Bool.false_and, if_neg Bool.false_ne_true, if_neg Bool.false_ne_true, if_neg Bool.false_ne_true]

theorem denotes (h : c.Positive) : Denotes c.exponent (value c.exponent) := ⟨h.finite, rfl⟩

theorem nonneg (h : c.Positive) (hinverse : ¬c.exponent < 0.0) : 0 ≤ value c.exponent := by
  rwa [h.denotes.lt_iff denotes_zero_point, not_lt] at hinverse

/-- A call that makes another one follows one of the rules. -/
theorem rule (h : c.Positive) (hnested : c.nested = some inner) : Rule c inner := by
  have hlt_ten (hhalve : ¬c.exponent ≥ 10.0) : value c.exponent < 10 := by
    rwa [ge_iff_le, denotes_ten.le_iff h.denotes, not_le] at hhalve
  cases branch_of_nested hnested with
  | inverse hinverse hanswer =>
    rw [h.denotes.lt_iff denotes_zero_point] at hinverse
    refine .inverse hinverse h.denotes.neg fun power => ?_
    rw [hanswer, h.sign_eq]
  | halve _ hhalve hanswer =>
    have hvalue : 10 ≤ value c.exponent := (denotes_ten.le_iff h.denotes).mp hhalve
    refine .halve hvalue (h.denotes.half (range_bottom_le_of_one (by linarith))) fun power => ?_
    rw [hanswer, h.sign_eq, float_one_mul]
  | lower _ hhalve hlower hanswer =>
    have hvalue : 1 ≤ value c.exponent := (denotes_one.le_iff h.denotes).mp hlower
    refine .lower hvalue (hlt_ten hhalve) (denotes_lowered h.denotes hvalue (hlt_ten hhalve))
      fun power => ?_
    rw [hanswer, h.sign_eq, float_one_mul, h.size_eq]
  | double hinverse _ hlower _ hanswer =>
    have hcounts := (counts_of_open (open_of_nested hnested)).2.2.2
    rw [counts_iff h.denotes, abs_of_nonneg (h.nonneg hinverse)] at hcounts
    have hlt : value c.exponent < 1 := by
      rwa [ge_iff_le, denotes_one.le_iff h.denotes, not_le] at hlower
    have hbottom := range_bottom_le (tolerance_value.1.trans hcounts) (by norm_num)
    have htop : 2 * value c.exponent < rangeTop := lt_range_top_of_le (by linarith)
    refine .double hcounts hlt (denotes_doubled h.denotes hbottom htop) fun power => ?_
    rw [hanswer, h.map_sign]

theorem nested_base (h : c.Positive) (hnested : c.nested = some inner) : inner.base = c.base := by
  rw [← h.size_eq]
  cases branch_of_nested hnested <;> rfl

theorem nested_positive (h : c.Positive) (hnested : c.nested = some inner) : inner.Positive := by
  have hbase := h.nested_base hnested
  refine ⟨hbase ▸ h.not_negative, hbase ▸ h.counts, ?_⟩
  cases h.rule hnested with
  | inverse _ hinner => exact hinner.finite
  | halve _ hinner => exact hinner.finite
  | lower _ _ hinner => exact hinner.finite
  | double _ _ hinner => exact hinner.finite

end Positive

/-! ## The sign of a base -/

/-- The call with the size of the base. -/
def absolute (c : Call) : Call := ⟨c.size, c.exponent, c.epsilon⟩

section Signs
variable {c inner : Call} {r : Except Failure Float}

theorem size_not_negative (c : Call) : ¬c.size < 0.0 := by
  rw [size]
  split_ifs with h
  · exact not_lt_of_lt (pos_of_neg_lt_zero (by rwa [float_neg_neg]))
  · exact h

theorem absolute_positive (h : c.settled = false) : c.absolute.Positive := by
  obtain ⟨hfinite, -, hcounts, -⟩ := counts_of_open h
  exact ⟨c.size_not_negative, hcounts, by rwa [Bool.not_eq_false'] at hfinite⟩

theorem absolute_sign (c : Call) : c.absolute.sign = 1.0 := by
  have hsize : ¬c.absolute.base < 0.0 := c.size_not_negative
  rw [sign, powerSign, decide_eq_false hsize, Bool.false_and, if_neg Bool.false_ne_true]

theorem absolute_size (c : Call) : c.absolute.size = c.size := if_neg c.size_not_negative

theorem absolute_settled (h : c.settled = false) : c.absolute.settled = false := by
  rw [(absolute_positive h).settled_eq]
  exact (counts_of_open h).2.2.2

theorem absolute_nested (h : c.settled = false) : c.absolute.nested = c.nested := by
  rw [nested, nested, h, absolute_settled h, absolute_size]
  rfl

theorem absolute_direct (h : c.settled = false) : c.direct = c.absolute.direct.map (c.sign * ·) := by
  rw [direct_open h, direct_open (absolute_settled h), (absolute_positive h).map_sign, absolute_size]

theorem sign_cases (c : Call) : c.sign = 1.0 ∨ c.sign = -1.0 := by
  rw [sign, powerSign]
  split_ifs
  · exact .inr rfl
  · exact .inl rfl

theorem absolute_answer (c : Call) (power : Float) :
    c.answer power = (c.absolute.answer power).map (c.sign * ·) := by
  have hdiv : c.sign / power = c.sign * (1.0 / power) := by
    rcases c.sign_cases with h | h
    · rw [h, float_one_mul]
    · rw [h, float_neg_div, float_neg_one_mul]
  have hmul : c.sign * c.size * power = c.sign * (c.size * power) := by
    rcases c.sign_cases with h | h
    · rw [h, float_one_mul, float_one_mul]
    · rw [h, float_neg_one_mul, float_neg_one_mul, float_neg_mul]
  have hmap (x : Except Failure Float) :
      x.map (c.sign * ·) = (x.map (1.0 * ·)).map (c.sign * ·) := by
    cases x with
    | error => rfl
    | ok x => rw [map_ok, map_ok, map_ok, float_one_mul]
  rw [answer, answer, absolute_sign, absolute_size, hdiv, hmul, hmap]
  change _ = (if c.exponent < 0.0 then _ else if c.exponent ≥ 10.0 then _ else
    if c.exponent ≥ 1.0 then _ else _ : Except Failure Float).map _
  split_ifs
  · rfl
  · rw [map_ok, float_one_mul]
  · rw [map_ok, float_one_mul]
  · rfl

/-- A call that reduces its exponent comes to what the size of its base comes to, with its sign. -/
theorem gives_absolute (h : c.settled = false) :
    Gives c r ↔ ∃ r', Gives c.absolute r' ∧ r = r'.map (c.sign * ·) := by
  have hbind (r' : Except Failure Float) :
      r' >>= c.answer = (r' >>= c.absolute.answer).map (c.sign * ·) := by
    cases r' with
    | error => rfl
    | ok power => exact c.absolute_answer power
  constructor
  · intro hgives
    cases hgives with
    | direct hnone => exact ⟨_, .direct ((absolute_nested h).trans hnone), absolute_direct h⟩
    | nested hnested hinner =>
      exact ⟨_, .nested ((absolute_nested h).trans hnested) hinner, hbind _⟩
  · rintro ⟨r', hgives, rfl⟩
    cases hgives with
    | direct hnone =>
      rw [← absolute_direct h]
      exact .direct ((absolute_nested h).symm.trans hnone)
    | nested hnested hinner =>
      rw [← hbind]
      exact .nested ((absolute_nested h).symm.trans hnested) hinner

end Signs

end Call
end Trinomial.Number
