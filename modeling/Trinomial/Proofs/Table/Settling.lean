import Trinomial.Proofs.Number.Negation
import Trinomial.Proofs.Solution.ZeroSigns
import Trinomial.Proofs.Table.Gathering

/-! # Tables up to the signs of zeros

A settled table has `0.0` for `-0.0`, in its coefficients and in its degrees. Adding a term, validating
and looking up a coefficient see no more of a table than that.
-/
set_option autoImplicit false

namespace Trinomial

open Solution (withoutNegativeZero)

/-! ## Ranks of zeros -/

namespace Number

theorem rank_without_negative_zero (x : Float) :
    rank (withoutNegativeZero x) = if rank x = -1 then 0 else rank x := by
  have hzero : rank (-0.0) = -1 := by decide
  by_cases hx : x = -0.0
  · rw [hx, if_pos hzero]
    decide
  · have hrank : rank x ≠ -1 := fun h => hx (rank_injective (h.trans hzero.symm))
    rw [without_negative_zero_eq hx, if_neg hrank]

theorem beq_of_zero_ranks {x y : Float} (hx : rank x = 0 ∨ rank x = -1)
    (hy : rank y = 0 ∨ rank y = -1) : (x == y) = true := by
  have hzero {z : Float} (h : rank z = 0 ∨ rank z = -1) : z = 0.0 ∨ z = -0.0 :=
    h.imp (fun h => rank_injective h) (fun h => rank_injective h)
  rcases hzero hx with rfl | rfl
  · rcases hzero hy with rfl | rfl
    · decide
    · decide
  · rcases hzero hy with rfl | rfl
    · decide
    · decide

end Number

/-! ## Degrees and terms -/

namespace Degree

/-- The degree with `0.0` for `-0.0`. -/
def settle : Degree → Degree
  | number x => number (withoutNegativeZero x)
  | indeterminate => indeterminate

variable (d e : Degree)

theorem settle_settle : d.settle.settle = d.settle := by
  cases d with
  | number x => exact congrArg number (Number.blind_without_negative_zero.apply x)
  | indeterminate => rfl

theorem settle_same : d.settle.same e = d.same e := by
  cases d with
  | number x => exact (Number.blind_beq e.value).apply x
  | indeterminate => rfl

theorem supported_eq : d.isSupported =
    (d.same (number 0.0) || d.same (number 1.0) || d.same (number 2.0)) := rfl

theorem settle_supported : d.settle.isSupported = d.isSupported := by
  rw [supported_eq, supported_eq, settle_same, settle_same, settle_same]

theorem supported_congr {d e : Degree} (h : d.same e = true) : d.isSupported = e.isSupported := by
  rw [supported_eq, supported_eq, same_congr h, same_congr h, same_congr h]

/-- Only the degree `-0.0` changes. -/
theorem settle_eq (h : d.same (number 0.0) = false) : d.settle = d := by
  cases d with
  | number x =>
    have hx : x ≠ -0.0 := by
      rintro rfl
      exact absurd h (by decide)
    exact congrArg number (Number.without_negative_zero_eq hx)
  | indeterminate => rfl

theorem settle_unsupported (h : d.isSupported = false) : d.settle = d := by
  apply settle_eq
  rw [isSupported, Bool.or_eq_false_iff, Bool.or_eq_false_iff] at h
  exact h.1.1

/-- The two zeros stand next to each other, and no number stands between them. -/
theorem settle_before {d e : Degree} (h : d.same e = false) :
    d.settle.before e.settle = d.before e := by
  cases d with
  | indeterminate => cases e <;> rfl
  | number x =>
    cases e with
    | indeterminate => rfl
    | number y =>
      have hzeros : ¬((Number.rank x = 0 ∨ Number.rank x = -1) ∧
          (Number.rank y = 0 ∨ Number.rank y = -1)) := by
        intro ⟨hx, hy⟩
        have hsame : (x == y) = true := Number.beq_of_zero_ranks hx hy
        exact absurd (h.symm.trans hsame) Bool.false_ne_true
      rw [settle, settle, before, before, decide_eq_decide, Number.rank_without_negative_zero,
        Number.rank_without_negative_zero]
      split_ifs <;> omega

end Degree

namespace Term

/-- The term with `0.0` for `-0.0`, in coefficient and degree. -/
def settle (t : Term) : Term := ⟨withoutNegativeZero t.coefficient, t.degree.settle⟩

theorem settle_settle (t : Term) : t.settle.settle = t.settle := by
  rw [settle, settle, Number.blind_without_negative_zero.apply, Degree.settle_settle]

theorem settle_plus (t u : Term) : (t.settle.plus u).settle = (t.plus u).settle := by
  have hsum := (Number.blind_without_negative_zero.add u.coefficient).apply t.coefficient
  exact congrArg₂ Term.mk hsum t.degree.settle_settle

end Term

namespace Table

/-- The table with `0.0` for `-0.0`, in coefficients and degrees. -/
def settled (t : Table) : Table := ⟨t.terms.map Term.settle⟩

/-- A term of this degree is there. -/
def holds (us : List Term) (d : Degree) : Bool := us.any fun u => u.degree.same d

/-! ## Adding a term -/

section Adding
variable (t : Term) (us : List Term)

theorem add_of_holds {table : Table} {t : Term} (h : holds table.terms t.degree = true) :
    table.add t = ⟨increase t table.terms⟩ := if_pos h

theorem add_of_missing {table : Table} {t : Term} (h : holds table.terms t.degree = false) :
    table.add t = ⟨place t table.terms⟩ := if_neg (Bool.eq_false_iff.mp h)

theorem increase_hit {t w : Term} (h : w.degree.same t.degree = true) :
    increase t (w :: us) = w.plus t :: us := if_pos h

theorem increase_skip {t w : Term} (h : w.degree.same t.degree = false) :
    increase t (w :: us) = w :: increase t us := if_neg (by rw [h]; decide)

theorem place_behind {t w : Term} (h : w.degree.before t.degree = true) :
    place t (w :: us) = w :: place t us := if_pos h

theorem place_front {t w : Term} (h : w.degree.before t.degree = false) :
    place t (w :: us) = t :: w :: us := if_neg (by rw [h]; decide)

theorem holds_settle (d : Degree) : holds (us.map Term.settle) d = holds us d := by
  rw [holds, List.any_map]
  congr 1
  funext u
  exact u.degree.settle_same d

theorem settle_terms_twice : (us.map Term.settle).map Term.settle = us.map Term.settle := by
  rw [List.map_map]
  exact List.map_congr_left fun u _ => u.settle_settle

theorem increase_settle : (increase t us).map Term.settle =
    (increase t (us.map Term.settle)).map Term.settle := by
  induction us with
  | nil => rfl
  | cons w ws ih =>
    have hsame : w.settle.degree.same t.degree = w.degree.same t.degree :=
      w.degree.settle_same t.degree
    cases hw : w.degree.same t.degree with
    | true =>
      rw [increase_hit _ hw, List.map_cons, List.map_cons, increase_hit _ (hsame.trans hw),
        List.map_cons, settle_terms_twice, Term.settle_plus]
    | false =>
      rw [List.map_cons, increase_skip _ hw, increase_skip _ (hsame.trans hw), List.map_cons, ih,
        List.map_cons, Term.settle_settle]

theorem place_settle {t : Term} (h : holds us t.degree = false) :
    (place t us).map Term.settle = place t.settle (us.map Term.settle) := by
  induction us with
  | nil => rfl
  | cons w ws ih =>
    obtain ⟨hw, hws⟩ := Bool.or_eq_false_iff.mp h
    have hbefore : w.settle.degree.before t.settle.degree = w.degree.before t.degree :=
      Degree.settle_before hw
    cases hu : w.degree.before t.degree with
    | true =>
      rw [List.map_cons, place_behind _ hu, place_behind _ (hbefore.trans hu), List.map_cons, ih hws]
    | false =>
      rw [List.map_cons, place_front _ hu, place_front _ (hbefore.trans hu), List.map_cons,
        List.map_cons]

/-- The signs of the zeros before do not matter for a sum after. -/
theorem add_settled (table : Table) (t : Term) :
    (table.settled.add t).settled = (table.add t).settled := by
  have hholds : holds table.settled.terms t.degree = holds table.terms t.degree :=
    holds_settle table.terms t.degree
  cases h : holds table.terms t.degree with
  | true =>
    rw [add_of_holds h, add_of_holds (hholds.trans h)]
    exact congrArg Table.mk (increase_settle t table.terms).symm
  | false =>
    rw [add_of_missing h, add_of_missing (hholds.trans h)]
    apply congrArg Table.mk
    rw [place_settle _ h, place_settle _ (hholds.trans h), settled, settle_terms_twice]

end Adding

/-! ## Reading a table -/

section Reading
variable (t : Table)

theorem significant_settled : t.settled.significant = t.significant.map Term.settle := by
  have hkept (u : Term) : (u.settle.degree.isSupported || u.settle.counts) =
      (u.degree.isSupported || u.counts) := by
    have hcounts := Number.blind_is_negligible.apply u.coefficient
    rw [Term.counts, Term.counts, ← hcounts]
    exact congrArg (· || _) u.degree.settle_supported
  rw [significant, significant, settled, List.filter_map]
  congr 1
  exact List.filter_congr fun u _ => hkept u

/-- Validation keeps or refuses by degrees and sizes alone. -/
theorem validate_settled : t.settled.validate = t.validate.map settled := by
  have hfind : t.settled.significant.find? (fun u => !u.degree.isSupported) =
      (t.significant.find? fun u => !u.degree.isSupported).map Term.settle := by
    rw [significant_settled, List.find?_map]
    congr 2
    funext u
    exact congrArg (!·) u.degree.settle_supported
  rw [validate, validate, hfind]
  cases h : t.significant.find? fun u => !u.degree.isSupported with
  | none => exact congrArg (fun us => Except.ok (Table.mk us)) t.significant_settled
  | some u =>
    have hunsupported : u.degree.isSupported = false := by
      simpa using List.find?_some h
    have hdegree : u.settle.degree = u.degree := u.degree.settle_unsupported hunsupported
    rw [Option.map_some, map_error]
    exact congrArg (fun d => Except.error (Failure.unsupportedDegree d)) hdegree

theorem coefficient_settled (d : Degree) :
    t.settled.coefficient d = withoutNegativeZero (t.coefficient d) := by
  have hfind : t.settled.terms.find? (isOf d) = (t.terms.find? (isOf d)).map Term.settle := by
    rw [settled, List.find?_map]
    congr 2
    funext u
    exact u.degree.settle_same d
  change ((t.settled.terms.find? (isOf d)).map Term.coefficient).getD 0.0 =
    withoutNegativeZero (((t.terms.find? (isOf d)).map Term.coefficient).getD 0.0)
  rw [hfind]
  cases t.terms.find? (isOf d) <;> rfl

theorem coefficient_validate {t u : Table} {d : Degree} (hd : d.isSupported = true)
    (h : t.validate = .ok u) : u.coefficient d = t.coefficient d := by
  have hkept (w : Term) : ((w.degree.isSupported || w.counts) && w.degree.same d) =
      w.degree.same d := by
    cases hw : w.degree.same d with
    | false => exact Bool.and_false _
    | true => rw [Degree.supported_congr hw, hd, Bool.true_or, Bool.true_and]
  rw [validate] at h
  split at h
  · cases h
  · cases h
    rw [coefficient, coefficient, significant, List.find?_filter]
    simp only [Bool.decide_and, Bool.decide_eq_true, hkept]

end Reading

end Table
end Trinomial
