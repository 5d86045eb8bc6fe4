import Trinomial.Proofs.Solution.Negation
import Trinomial.Proofs.Table.Settling

/-! # Tables of turned equations

Terms that enter with opposite signs, after a zero instead of before one, fill a table of opposite
coefficients, up to the signs of zeros. Adding a negative zero changes nothing that is there; where
its degree is missing, it commutes with every other term because places only depend on degrees.
-/
set_option autoImplicit false

namespace Trinomial

open Number (Blind)
open Solution (withoutNegativeZero)

/-! ## Places -/

namespace Degree

/-- The place of a degree in the order of tables. -/
def key : Degree → WithBot ℤ
  | number x => Number.rank x
  | indeterminate => ⊥

variable (d e : Degree)

theorem before_iff_key : d.before e = true ↔ d.key < e.key := by
  cases d with
  | number x =>
    cases e with
    | number y => exact decide_eq_true_iff.trans WithBot.coe_lt_coe.symm
    | indeterminate => exact ⟨nofun, fun h => absurd h not_lt_bot⟩
  | indeterminate =>
    cases e with
    | number y => exact ⟨fun _ => WithBot.bot_lt_coe _, fun _ => rfl⟩
    | indeterminate => exact ⟨nofun, fun h => absurd h not_lt_bot⟩

theorem key_injective {d e : Degree} (h : d.key = e.key) : d = e := by
  cases d with
  | number x =>
    cases e with
    | number y => exact congrArg number (Number.rank_injective (WithBot.coe_injective h))
    | indeterminate => exact absurd h WithBot.coe_ne_bot
  | indeterminate =>
    cases e with
    | number y => exact absurd h WithBot.bot_ne_coe
    | indeterminate => rfl

end Degree

namespace Term

theorem negate_negate (t : Term) : t.negate.negate = t := by
  rw [negate, negate, Number.float_neg_neg]

end Term

namespace Table

section Adding
variable (t u : Term) (us : List Term)

theorem place_pair {t u : Term} (h : t.degree.before u.degree = true)
    (h' : u.degree.before t.degree = false) (hus : ∀ w ∈ us.head?, w.degree.before u.degree = false ∧
      w.degree.before t.degree = false) : place t (place u us) = place u (place t us) := by
  cases us with
  | nil => rw [place, place, place_front _ h', place_behind _ h, place]
  | cons w ws =>
    obtain ⟨hu, ht⟩ := hus w rfl
    rw [place_front _ hu, place_front _ h', place_front _ ht, place_behind _ h, place_front _ hu]

/-- Terms of different degrees find their places in either order. -/
theorem place_comm {t u : Term} (h : t.degree ≠ u.degree) :
    place t (place u us) = place u (place t us) := by
  have hkey : t.degree.key ≠ u.degree.key := fun hkey => h (Degree.key_injective hkey)
  have hbefore (d e : Degree) : d.before e = decide (d.key < e.key) := by
    rw [Bool.eq_iff_iff, Degree.before_iff_key, decide_eq_true_iff]
  have hpair {us : List Term} (hus : ∀ w ∈ us.head?, w.degree.before u.degree = false ∧
      w.degree.before t.degree = false) : place t (place u us) = place u (place t us) := by
    rcases lt_or_gt_of_ne hkey with hlt | hlt
    · apply place_pair _ _ _ hus
      · rw [hbefore, decide_eq_true hlt]
      · rw [hbefore, decide_eq_false (not_lt_of_gt hlt)]
    · refine (place_pair _ ?_ ?_ fun w hw => (hus w hw).symm).symm
      · rw [hbefore, decide_eq_true hlt]
      · rw [hbefore, decide_eq_false (not_lt_of_gt hlt)]
  induction us with
  | nil => exact hpair nofun
  | cons w ws ih =>
    cases ht : w.degree.before t.degree with
    | true =>
      cases hu : w.degree.before u.degree with
      | true =>
        rw [place_behind _ hu, place_behind _ ht, place_behind _ ht, place_behind _ hu, ih]
      | false =>
        -- `u` is not behind `w`, and `t` is, so `t` goes behind `u`
        have hut : u.degree.before t.degree = true := by
          rw [Degree.before_iff_key] at ht ⊢
          rw [Bool.eq_false_iff, Ne, Degree.before_iff_key, not_lt] at hu
          exact hu.trans_lt ht
        rw [place_front _ hu, place_behind _ hut, place_behind _ ht, place_front _ hu]
    | false =>
      cases hu : w.degree.before u.degree with
      | true =>
        have htu : t.degree.before u.degree = true := by
          rw [Degree.before_iff_key] at hu ⊢
          rw [Bool.eq_false_iff, Ne, Degree.before_iff_key, not_lt] at ht
          exact ht.trans_lt hu
        rw [place_behind _ hu, place_front _ ht, place_front _ ht, place_behind _ htu,
          place_behind _ hu]
      | false =>
        apply hpair
        rintro _ ⟨⟩
        exact ⟨hu, ht⟩

theorem increase_place {t u : Term} (h : u.degree.same t.degree = false) :
    increase t (place u us) = place u (increase t us) := by
  induction us with
  | nil => exact increase_skip [] h
  | cons w ws ih =>
    have hplus : (w.plus t).degree = w.degree := rfl
    cases hw : w.degree.same t.degree with
    | true =>
      cases hu : w.degree.before u.degree with
      | true =>
        rw [place_behind _ hu, increase_hit _ hw, increase_hit _ hw, place_behind _ (hplus ▸ hu)]
      | false =>
        rw [place_front _ hu, increase_skip _ h, increase_hit _ hw, place_front _ (hplus ▸ hu)]
    | false =>
      cases hu : w.degree.before u.degree with
      | true =>
        rw [place_behind _ hu, increase_skip _ hw, increase_skip _ hw, place_behind _ hu, ih]
      | false =>
        rw [place_front _ hu, increase_skip _ h, increase_skip _ hw, place_front _ hu]

/-- A placed term takes what is added to its degree. -/
theorem increase_placed {t u : Term} (h : u.degree.same t.degree = true)
    (hus : holds us t.degree = false) : increase t (place u us) = place (u.plus t) us := by
  induction us with
  | nil => exact increase_hit [] h
  | cons w ws ih =>
    obtain ⟨hw, hws⟩ := Bool.or_eq_false_iff.mp hus
    cases hu : w.degree.before u.degree with
    | true =>
      rw [place_behind _ hu, increase_skip _ hw, ih hws]
      exact (place_behind ws (t := u.plus t) hu).symm
    | false =>
      rw [place_front _ hu, increase_hit _ h]
      exact (place_front ws (t := u.plus t) hu).symm

/-! ## Degrees that are there -/

theorem holds_congr {t : Term} {d : Degree} (h : t.degree.same d = true) (us : List Term) :
    holds us d = holds us t.degree :=
  congrArg (fun p => us.any p) (is_of_congr h)

theorem holds_increase (d : Degree) : holds (increase t us) d = holds us d := by
  have h (vs : List Term) : holds vs d = (vs.map Term.degree).any fun e => e.same d := by
    rw [List.any_map]
    rfl
  rw [h, h, degrees_increase]

theorem holds_place (d : Degree) : holds (place t us) d = (t.degree.same d || holds us d) := by
  induction us with
  | nil => rfl
  | cons w ws ih =>
    rw [place]
    split_ifs
    · rw [holds, List.any_cons]
      change (_ || holds (place t ws) d) = (_ || (_ || holds ws d))
      rw [ih, Bool.or_left_comm]
    · rfl

theorem holds_add (table : Table) (t : Term) (d : Degree) :
    holds (table.add t).terms d = (t.degree.same d || holds table.terms d) := by
  cases h : holds table.terms t.degree with
  | true =>
    rw [add_of_holds h, holds_increase]
    cases hd : t.degree.same d with
    | false => rw [Bool.false_or]
    | true =>
      rw [holds_congr hd, h]
      rfl
  | false => rw [add_of_missing h, holds_place]

/-! ## Opposite terms -/

theorem holds_negate (d : Degree) : holds (us.map Term.negate) d = holds us d := by
  rw [holds, List.any_map]
  rfl

theorem increase_negate : ((increase t us).map Term.negate).map Term.settle =
    (increase t.negate (us.map Term.negate)).map Term.settle := by
  induction us with
  | nil => rfl
  | cons w ws ih =>
    cases hw : w.degree.same t.degree with
    | true =>
      have hsum : (w.plus t).negate.settle = (w.negate.plus t.negate).settle := by
        have hcoefficient := Blind.neg_add_neg w.coefficient t.coefficient
          Number.blind_without_negative_zero
        exact congrArg₂ Term.mk hcoefficient.symm rfl
      rw [increase_hit _ hw, List.map_cons, List.map_cons, List.map_cons, hsum,
        increase_hit (t := t.negate) (w := w.negate) _ hw, List.map_cons]
    | false =>
      rw [increase_skip _ hw, List.map_cons, List.map_cons, List.map_cons,
        increase_skip (t := t.negate) (w := w.negate) _ hw, List.map_cons, ih]

theorem place_negate : (place t us).map Term.negate = place t.negate (us.map Term.negate) := by
  induction us with
  | nil => rfl
  | cons w ws ih =>
    cases hu : w.degree.before t.degree with
    | true =>
      rw [place_behind _ hu, List.map_cons, List.map_cons, ih,
        place_behind (t := t.negate) (w := w.negate) _ hu]
    | false =>
      rw [place_front _ hu, List.map_cons, List.map_cons,
        place_front (t := t.negate) (w := w.negate) _ hu]

/-- Opposite terms have opposite sums, up to the sign of a zero. -/
theorem add_negate (table : Table) (t : Term) :
    (table.add t).negate.settled = (table.negate.add t.negate).settled := by
  have hholds : holds table.negate.terms t.negate.degree = holds table.terms t.degree :=
    holds_negate table.terms t.degree
  cases h : holds table.terms t.degree with
  | true =>
    rw [add_of_holds h, add_of_holds (hholds.trans h)]
    exact congrArg Table.mk (increase_negate t table.terms)
  | false =>
    rw [add_of_missing h, add_of_missing (hholds.trans h)]
    exact congrArg (fun us => Table.mk (us.map Term.settle)) (place_negate t table.terms)

/-! ## A zero first or last -/

/-- The term `0` of a side that counts with its opposite. -/
def negativeZero : Term := ⟨-0.0, .number 0.0⟩

theorem increase_negative_zero : increase negativeZero us = us := by
  induction us with
  | nil => rfl
  | cons w ws ih =>
    cases hw : w.degree.same negativeZero.degree with
    | true =>
      have hplus : w.plus negativeZero = w :=
        congrArg (Term.mk · w.degree) (Number.float_add_neg_zero w.coefficient)
      rw [increase_hit _ hw, hplus]
    | false => rw [increase_skip _ hw, ih]

theorem add_negative_zero {table : Table} (h : holds table.terms negativeZero.degree = true) :
    table.add negativeZero = table := by
  rw [add_of_holds h, increase_negative_zero]

/-- A term that takes the place of a negative zero differs from it in nothing but the sign of a zero. -/
theorem settle_negative_zero_plus {t : Term} (h : t.degree.same negativeZero.degree = true) :
    (negativeZero.plus t).settle = t.settle := by
  have hdegree : t.degree.settle = .number 0.0 := by
    cases hd : t.degree with
    | indeterminate =>
      rw [hd] at h
      exact absurd h (by decide)
    | number x =>
      rw [hd] at h
      obtain ⟨hx, -, hplace⟩ := Number.beq_iff.mp h
      rcases Number.zero_of_ordinal hx hplace with hzero | hzero
      · exact congrArg (fun y => (Degree.number y).settle) hzero
      · exact congrArg (fun y => (Degree.number y).settle) hzero
  exact congrArg₂ (fun x d => Term.mk (withoutNegativeZero x) d)
    (Number.float_neg_zero_add t.coefficient) hdegree.symm

/-- A negative zero may be added before or after any other term. -/
theorem add_negative_zero_comm (table : Table) (t : Term) :
    ((table.add t).add negativeZero).settled = ((table.add negativeZero).add t).settled := by
  have hadd := holds_add table t negativeZero.degree
  cases hzero : holds table.terms negativeZero.degree with
  | true =>
    rw [hzero, Bool.or_true] at hadd
    rw [add_negative_zero hzero, add_negative_zero hadd]
  | false =>
    have hplaced := holds_place negativeZero table.terms t.degree
    rw [hzero, Bool.or_false] at hadd
    rw [add_of_missing hzero]
    cases ht : t.degree.same negativeZero.degree with
    | true =>
      have ht' : negativeZero.degree.same t.degree = true := (Degree.same_comm _ _).trans ht
      have hmissing : holds table.terms t.degree = false := (holds_congr ht _).symm.trans hzero
      have hplus := place_settle (t := negativeZero.plus t) table.terms hzero
      rw [ht] at hadd
      rw [ht', Bool.true_or] at hplaced
      rw [add_negative_zero hadd, add_of_missing hmissing, add_of_holds hplaced,
        increase_placed _ ht' hmissing]
      apply congrArg Table.mk
      rw [place_settle _ hmissing, ← settle_negative_zero_plus ht]
      exact hplus.symm
    | false =>
      have ht' : negativeZero.degree.same t.degree = false := (Degree.same_comm _ _).trans ht
      rw [ht] at hadd
      rw [ht', Bool.false_or] at hplaced
      rw [add_of_missing hadd]
      cases h : holds table.terms t.degree with
      | true =>
        rw [add_of_holds h, add_of_holds (hplaced.trans h), increase_place _ ht']
      | false =>
        have hne : t.degree ≠ negativeZero.degree := by
          intro heq
          rw [heq] at ht
          exact absurd ht (by decide)
        rw [add_of_missing h, add_of_missing (hplaced.trans h), place_comm _ hne]

/-- One more term on either side keeps the tables opposite. -/
theorem opposite_step {table other : Table} (t : Term)
    (h : (table.add negativeZero).settled = other.negate.settled) :
    ((table.add t).add negativeZero).settled = (other.add t.negate).negate.settled :=
  calc ((table.add t).add negativeZero).settled
    _ = ((table.add negativeZero).add t).settled := add_negative_zero_comm table t
    _ = ((table.add negativeZero).settled.add t).settled := (add_settled _ t).symm
    _ = (other.negate.settled.add t).settled := by rw [h]
    _ = (other.negate.add t).settled := add_settled _ t
    _ = (other.add t.negate).negate.settled := by rw [add_negate, Term.negate_negate]

/-- All terms and a last negative zero fill a table that is opposite to that of a first zero and the
opposite terms. -/
theorem opposite_run {table other : Table} (ts : List Term)
    (h : (table.add negativeZero).settled = other.negate.settled) :
    ((table.addAll ts).add negativeZero).settled =
      (other.addAll (ts.map Term.negate)).negate.settled := by
  induction ts generalizing table other with
  | nil => exact h
  | cons t ts ih => exact ih (opposite_step t h)

end Adding

/-! ## Reading opposite tables -/

section Reading
variable (t : Table)

theorem significant_negate : t.negate.significant = t.significant.map Term.negate := by
  have hkept (u : Term) : (u.negate.degree.isSupported || u.negate.counts) =
      (u.degree.isSupported || u.counts) := by
    rw [Term.counts, Term.counts, ← Number.is_negligible_neg u.coefficient]
    rfl
  rw [significant, significant, negate, List.filter_map]
  congr 1
  exact List.filter_congr fun u _ => hkept u

theorem validate_negate : t.negate.validate = t.validate.map negate := by
  have hfind : t.negate.significant.find? (fun u => !u.degree.isSupported) =
      (t.significant.find? fun u => !u.degree.isSupported).map Term.negate := by
    rw [significant_negate, List.find?_map]
    rfl
  rw [validate, validate, hfind]
  cases t.significant.find? fun u => !u.degree.isSupported with
  | none => exact congrArg (fun us => Except.ok (Table.mk us)) t.significant_negate
  | some u => rfl

theorem place_between_parts (u : Term) (us : List Term) :
    ∃ l r, us = l ++ r ∧ place u us = l ++ u :: r := by
  induction us with
  | nil => exact ⟨[], [], rfl, rfl⟩
  | cons w ws ih =>
    cases hw : w.degree.before u.degree with
    | true =>
      obtain ⟨l, r, hws, hplace⟩ := ih
      exact ⟨w :: l, r, by rw [hws]; rfl, by rw [place_behind _ hw, hplace]; rfl⟩
    | false => exact ⟨[], w :: ws, rfl, place_front _ hw⟩

theorem coefficient_add_negative_zero (d : Degree) :
    withoutNegativeZero ((t.add negativeZero).coefficient d) =
      withoutNegativeZero (t.coefficient d) := by
  cases hzero : holds t.terms negativeZero.degree with
  | true => rw [add_negative_zero hzero]
  | false =>
    obtain ⟨l, r, hterms, hplace⟩ := place_between_parts negativeZero t.terms
    rw [add_of_missing hzero, hplace]
    change withoutNegativeZero ((((l ++ negativeZero :: r).find? (isOf d)).map
      Term.coefficient).getD 0.0) =
        withoutNegativeZero (((t.terms.find? (isOf d)).map Term.coefficient).getD 0.0)
    cases hd : isOf d negativeZero with
    | false => rw [find_between_other hd, hterms]
    | true =>
      have hnone : t.terms.find? (isOf d) = none := by
        rw [is_of_congr hd, List.find?_eq_none]
        exact fun u hu hsame =>
          absurd (List.any_eq_true.mpr ⟨u, hu, hsame⟩) (Bool.eq_false_iff.mp hzero)
      rw [find_between_self hd (hterms ▸ hnone), hnone]
      rfl

end Reading

end Table
end Trinomial
