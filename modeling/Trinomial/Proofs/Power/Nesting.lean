import Trinomial.Proofs.Power.Depth

/-! # How deep the calls of a power nest

The calls of a power make a trail: each one makes the next, and the last makes none. There are at most 4096
of them. A power that may nest as many calls as its trail has is answered, and with fewer it is not; to allow
more changes neither the answer nor the journal.
-/
set_option autoImplicit false

namespace Trinomial.Number

namespace Call
variable {c inner : Call} {cs : List Call} {depth : ℕ}

/-- What the call does with at most `depth` nested calls, its journal included. -/
def run (depth : ℕ) (c : Call) : Option (Traced Float) := powerWithin depth c.base c.exponent c.epsilon

/-! ## The run of one call -/

theorem exists_run_settled (h : c.settled = true) : ∃ r, ∀ depth, c.run (depth + 1) = some r :=
  ⟨_, power_within_settled h⟩

/-- A call that makes no other one does the same whatever depth it is left. -/
theorem exists_run_last (h : c.nested = none) : ∃ r, ∀ depth, c.run (depth + 1) = some r := by
  cases hsettled : c.settled with
  | true => exact exists_run_settled hsettled
  | false =>
    have hbranch := branch hsettled
    rw [h] at hbranch
    cases hbranch with
    | last hinverse hhalve hlower hlast =>
      exact ⟨_, fun depth => by
        rw [run, power_within_open hsettled, if_neg hinverse, if_neg hhalve, if_neg hlower, if_pos hlast]⟩

/-- What a call does with the run of its nested call does not depend on the depth. -/
theorem exists_run_nested (h : c.nested = some inner) :
    ∃ finish : Traced Float → Traced Float, ∀ depth, c.run (depth + 1) = (inner.run depth).map finish := by
  have hopen := open_of_nested h
  cases branch_of_nested h with
  | inverse hinverse =>
    exact ⟨_, fun depth => by rw [run, power_within_open hopen, if_pos hinverse, run]⟩
  | halve hinverse hhalve =>
    exact ⟨_, fun depth => by rw [run, power_within_open hopen, if_neg hinverse, if_pos hhalve, run]⟩
  | lower hinverse hhalve hlower =>
    exact ⟨_, fun depth => by
      rw [run, power_within_open hopen, if_neg hinverse, if_neg hhalve, if_pos hlower, run]⟩
  | double hinverse hhalve hlower hlast =>
    exact ⟨_, fun depth => by
      rw [run, power_within_open hopen, if_neg hinverse, if_neg hhalve, if_neg hlower, if_neg hlast, run]⟩

/-! ## The trail of calls -/

/-- The calls from a call on, each made by the one before it; the last one makes none. -/
inductive Trail : Call → List Call → Prop where
  | last {c : Call} (h : c.nested = none) : Trail c [c]
  | next {c inner : Call} {cs : List Call} (h : c.nested = some inner) (htrail : Trail inner cs) :
      Trail c (c :: cs)

theorem exists_trail (h : c.Ends depth) : ∃ cs, Trail c cs ∧ cs.length ≤ depth := by
  induction depth generalizing c with
  | zero => cases h.choose_spec
  | succ depth ih =>
    cases hnested : c.nested with
    | none => exact ⟨[c], .last hnested, Nat.le_add_left 1 depth⟩
    | some inner =>
      obtain ⟨cs, htrail, hle⟩ := ih (ends_succ.mp h inner hnested)
      exact ⟨c :: cs, .next hnested htrail, Nat.succ_le_succ hle⟩

/-- The length of the trail is the depth that the call needs, and all that it needs. -/
theorem Trail.run_eq (h : Trail c cs) :
    ∃ r, ∀ depth, c.run depth = if cs.length ≤ depth then some r else none := by
  induction h with
  | last hnone =>
    obtain ⟨r, hr⟩ := exists_run_last hnone
    refine ⟨r, fun depth => ?_⟩
    cases depth with
    | zero => rfl
    | succ depth => rw [hr, List.length_singleton, if_pos (Nat.le_add_left 1 depth)]
  | @next c inner cs hnested _ ih =>
    obtain ⟨r, hr⟩ := ih
    obtain ⟨finish, hfinish⟩ := exists_run_nested hnested
    refine ⟨finish r, fun depth => ?_⟩
    cases depth with
    | zero => rfl
    | succ depth =>
      rw [hfinish, hr, List.length_cons]
      by_cases hle : cs.length ≤ depth
      · rw [if_pos hle, if_pos (Nat.succ_le_succ hle)]
        rfl
      · rw [if_neg hle, if_neg (mt Nat.le_of_succ_le_succ hle)]
        rfl

end Call
open Call

/-- The calls of a power end, and at most 4096 of them are nested; the power has its answer from as many
nested calls as there are, whatever more is allowed, and none from fewer. -/
theorem power_calls_bounded (base exponent : Float) : ∃ calls,
    Trail ⟨base, exponent, tolerance⟩ calls ∧ calls.length ≤ 4096 ∧
    ∀ depth, powerWithin depth base exponent tolerance =
      if calls.length ≤ depth then some (power base exponent) else none := by
  obtain ⟨calls, htrail, hle⟩ := exists_trail (ends ⟨base, exponent, tolerance⟩)
  have hbound : calls.length ≤ powerDepth := hle.trans (by decide)
  obtain ⟨r, hr⟩ := htrail.run_eq
  have hpower : power base exponent = r := by
    have hdepth : powerWithin powerDepth base exponent tolerance = some r :=
      (hr powerDepth).trans (if_pos hbound)
    rw [power, hdepth, Option.getD_some]
  refine ⟨calls, htrail, hbound, fun depth => ?_⟩
  rw [hpower]
  exact hr depth

/-- A square root takes three calls: the exponents are 0.5, 1 and 0. -/
example : (powerWithin 2 4.0 0.5 tolerance).isNone = true ∧
    (powerWithin 3 4.0 0.5 tolerance).map Traced.result = some (.ok 2.0) := by
  decide +kernel

end Trinomial.Number
