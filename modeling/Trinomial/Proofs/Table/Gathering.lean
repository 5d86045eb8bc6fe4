import Trinomial.Proofs.Number.Order
import Trinomial.Table

/-! # Tables as sorted maps

A table that is filled from the empty one stays in strictly ascending order of its degrees. For each
degree it then holds one term, whose coefficient is the sum of those added, from the first one on and in
their order, and whose degree is spelled as in the first one. Terms of other degrees do not matter.
-/
set_option autoImplicit false

namespace Trinomial

/-! ## Degrees as keys -/

namespace Degree
variable {d e : Degree}

theorem same_comm (d e : Degree) : d.same e = e.same d := Number.beq_swap d.value e.value

theorem same_congr (h : d.same e = true) (f : Degree) : d.same f = e.same f :=
  Number.beq_congr h f.value

theorem same_self (h : d.value.isNaN = false) : d.same d = true :=
  (Number.beq_iff_ordinal h h).mpr rfl

theorem same_of_lt (h : d.value < e.value) : d.same e = false := by
  obtain ⟨hd, he⟩ := Number.is_nan_of_lt h
  rw [same, Bool.eq_false_iff, Ne, Number.beq_iff_ordinal hd he]
  exact ((Number.lt_iff_ordinal hd he).mp h).ne

theorem before_iff (hd : d.value.isNaN = false) (he : e.value.isNaN = false) :
    d.before e = true ↔ Number.rank d.value < Number.rank e.value := by
  cases d with
  | indeterminate => exact absurd hd (by decide)
  | number x =>
    cases e with
    | indeterminate => exact absurd he (by decide)
    | number y => exact decide_eq_true_iff

section Numbers
variable (hd : d.value.isNaN = false) (he : e.value.isNaN = false) (hne : d.same e = false)
include hd he hne

theorem lt_of_before (h : d.before e = true) : d.value < e.value :=
  (Number.rank_lt_iff hd he hne).mp ((before_iff hd he).mp h)

theorem lt_of_not_before (h : d.before e = false) : e.value < d.value := by
  have hne' : e.same d = false := (same_comm e d).trans hne
  have hdiff : Number.rank d.value ≠ Number.rank e.value := by
    intro hrank
    rw [same, Number.rank_injective hrank] at hne
    exact absurd (same_self he) (Bool.eq_false_iff.mp hne)
  apply lt_of_before he hd hne'
  rw [before_iff he hd]
  rw [Bool.eq_false_iff, Ne, before_iff hd he] at h
  omega

end Numbers

end Degree

/-! ## Sums of terms -/

namespace Term

/-- The term with the coefficient of another one added. -/
def plus (t u : Term) : Term := { t with coefficient := t.coefficient + u.coefficient }

/-- Terms of one degree added up in their order, from the first one on. -/
def gather : List Term → Option Term
  | [] => none
  | t :: ts => some (ts.foldl plus t)

/-- A sum with one more term; without any before, it is that term. -/
def gatherNext (sum : Option Term) (t : Term) : Term := (sum.map fun u => u.plus t).getD t

theorem gather_concat (ts : List Term) (t : Term) :
    gather (ts ++ [t]) = some (gatherNext (gather ts) t) := by
  cases ts with
  | nil => rfl
  | cons u us =>
    rw [List.cons_append, gather, List.foldl_append]
    rfl

theorem degree_foldl_plus (t : Term) (ts : List Term) : (ts.foldl plus t).degree = t.degree := by
  induction ts generalizing t with
  | nil => rfl
  | cons u us ih => exact ih (t.plus u)

theorem degree_gather {ts : List Term} {u : Term} (h : gather ts = some u) :
    ∃ t ∈ ts, t.degree = u.degree := by
  cases ts with
  | nil => cases h
  | cons t ts =>
    cases h
    exact ⟨t, List.mem_cons_self, (degree_foldl_plus t ts).symm⟩

end Term

namespace Table

/-- Of one degree, as a number. -/
def isOf (d : Degree) (t : Term) : Bool := t.degree.same d

/-- No degree is what is not a number. -/
def Numeric (ts : List Term) : Prop := ∀ t ∈ ts, t.degree.value.isNaN = false

/-- The degrees increase from term to term. -/
def Ascending (ts : List Term) : Prop := ts.Pairwise fun t u => t.degree.value < u.degree.value

theorem is_of_congr {d : Degree} {t : Term} (h : isOf d t = true) : isOf d = isOf t.degree := by
  funext u
  rw [isOf, Degree.same_comm, ← Degree.same_congr h, Degree.same_comm]
  rfl

/-! ## One more term -/

section Adding
variable {t : Term} {us : List Term} {d : Degree}

theorem degrees_increase (t : Term) (us : List Term) :
    (increase t us).map Term.degree = us.map Term.degree := by
  induction us with
  | nil => rfl
  | cons u us ih =>
    rw [increase]
    split_ifs
    · rfl
    · rw [List.map_cons, ih, List.map_cons]

/-- Adding a term of another degree is not seen. -/
theorem find_increase_other (h : isOf d t = false) : (increase t us).find? (isOf d) =
    us.find? (isOf d) := by
  induction us with
  | nil => rfl
  | cons u us ih =>
    rw [increase]
    split_ifs with hu
    · have hd : isOf d u = false := (Degree.same_congr hu d).trans h
      have hd' : isOf d { u with coefficient := u.coefficient + t.coefficient } = false := hd
      rw [List.find?_cons_of_neg (by rw [hd']; decide), List.find?_cons_of_neg (by rw [hd]; decide)]
    · rw [List.find?_cons, ih, List.find?_cons]

theorem find_increase_self (t : Term) (us : List Term) :
    (increase t us).find? (isOf t.degree) =
      (us.find? (isOf t.degree)).map fun u => u.plus t := by
  induction us with
  | nil => rfl
  | cons u us ih =>
    rw [increase]
    split_ifs with hu
    · have hplus : isOf t.degree (u.plus t) = true := hu
      rw [List.find?_cons_of_pos (p := isOf t.degree) hu]
      exact List.find?_cons_of_pos hplus
    · rw [List.find?_cons_of_neg (p := isOf t.degree) hu,
        List.find?_cons_of_neg (p := isOf t.degree) hu, ih]

/-- Where the terms before a degree precede all others, a term goes between them, whichever way the
place is searched. -/
theorem place_between {l r : List Term} (hl : ∀ u ∈ l, u.degree.before t.degree = true)
    (hr : ∀ u ∈ r, u.degree.before t.degree = false) : place t (l ++ r) = l ++ t :: r := by
  induction l with
  | nil =>
    cases r with
    | nil => rfl
    | cons u r => exact if_neg (by rw [hr u List.mem_cons_self]; decide)
  | cons u l ih =>
    rw [List.cons_append, place, if_pos (hl u List.mem_cons_self),
      ih fun w hw => hl w (List.mem_cons_of_mem u hw)]
    rfl

/-- Ascending terms are of that kind for every degree. -/
theorem Ascending.partition (h : Ascending us) (hus : Numeric us) (hd : d.value.isNaN = false) :
    ∃ l r, us = l ++ r ∧ (∀ u ∈ l, u.degree.before d = true) ∧
      ∀ u ∈ r, u.degree.before d = false := by
  induction us with
  | nil => exact ⟨[], [], rfl, nofun, nofun⟩
  | cons u us ih =>
    obtain ⟨hfirst, hrest⟩ := List.pairwise_cons.mp h
    obtain ⟨hu, hus⟩ := List.forall_mem_cons.mp hus
    cases hbefore : u.degree.before d with
    | true =>
      obtain ⟨l, r, rfl, hl, hr⟩ := ih hrest hus
      exact ⟨u :: l, r, rfl, List.forall_mem_cons.mpr ⟨hbefore, hl⟩, hr⟩
    | false =>
      refine ⟨[], u :: us, rfl, nofun, List.forall_mem_cons.mpr ⟨hbefore, fun w hw => ?_⟩⟩
      have hlt := Number.rank_lt_of_lt (hfirst w hw)
      rw [Bool.eq_false_iff, Ne, Degree.before_iff hu hd] at hbefore
      rw [Bool.eq_false_iff, Ne, Degree.before_iff (hus w hw) hd]
      omega

theorem find_between_other {l r : List Term} (h : isOf d t = false) :
    (l ++ t :: r).find? (isOf d) = (l ++ r).find? (isOf d) := by
  rw [List.find?_append, List.find?_append, List.find?_cons_of_neg (by rw [h]; decide)]

theorem find_between_self {l r : List Term} (h : isOf d t = true)
    (hnone : (l ++ r).find? (isOf d) = none) : (l ++ t :: r).find? (isOf d) = some t := by
  rw [List.find?_append, Option.or_eq_none_iff] at hnone
  rw [List.find?_append, hnone.1, List.find?_cons_of_pos h]
  rfl

theorem Ascending.between {l r : List Term} (h : Ascending (l ++ r)) (hnum : Numeric (l ++ r))
    (ht : t.degree.value.isNaN = false) (hnone : (l ++ r).find? (isOf t.degree) = none)
    (hl : ∀ u ∈ l, u.degree.before t.degree = true)
    (hr : ∀ u ∈ r, u.degree.before t.degree = false) : Ascending (l ++ t :: r) := by
  have hne (u : Term) (hu : u ∈ l ++ r) : u.degree.same t.degree = false :=
    Bool.eq_false_iff.mpr (List.find?_eq_none.mp hnone u hu)
  obtain ⟨hleft, hright, hacross⟩ := List.pairwise_append.mp h
  have hbelow (u : Term) (hu : u ∈ l) : u.degree.value < t.degree.value :=
    have hmem := List.mem_append_left r hu
    Degree.lt_of_before (hnum u hmem) ht (hne u hmem) (hl u hu)
  have habove (u : Term) (hu : u ∈ r) : t.degree.value < u.degree.value :=
    have hmem := List.mem_append_right l hu
    Degree.lt_of_not_before (hnum u hmem) ht (hne u hmem) (hr u hu)
  exact List.pairwise_append.mpr ⟨hleft, List.pairwise_cons.mpr ⟨habove, hright⟩,
    fun u hu => List.forall_mem_cons.mpr ⟨hbelow u hu, hacross u hu⟩⟩

end Adding

/-! ## All terms -/

/-- The table is in order and holds, for each degree, the sum of the terms of that degree. -/
structure Gathers (table : Table) (ts : List Term) : Prop where
  numeric : Numeric table.terms
  ascending : Ascending table.terms
  find (d : Degree) : table.terms.find? (isOf d) = Term.gather (ts.filter (isOf d))

theorem gathers_empty : Gathers {} [] :=
  ⟨nofun, List.Pairwise.nil, fun _ => rfl⟩

section Filling
variable {table : Table} {ts : List Term} {t : Term}

theorem numeric_iff_degrees (us : List Term) :
    Numeric us ↔ ∀ d ∈ us.map Term.degree, d.value.isNaN = false := by
  rw [Numeric, List.forall_mem_map]

theorem ascending_iff_degrees (us : List Term) :
    Ascending us ↔ (us.map Term.degree).Pairwise fun d e => d.value < e.value := by
  rw [Ascending, List.pairwise_map]

/-- What is found in the enlarged table is what the enlarged list gathers to. -/
theorem Gathers.find_concat {us : List Term} (h : Gathers table ts)
    (hself : us.find? (isOf t.degree) =
      some (Term.gatherNext (table.terms.find? (isOf t.degree)) t))
    (hother : ∀ d, isOf d t = false → us.find? (isOf d) = table.terms.find? (isOf d))
    (d : Degree) : us.find? (isOf d) = Term.gather ((ts ++ [t]).filter (isOf d)) := by
  rw [List.filter_append]
  cases hd : isOf d t with
  | false =>
    have hnone : [t].filter (isOf d) = [] := List.filter_cons_of_neg (by rw [hd]; decide)
    rw [hother d hd, h.find, hnone, List.append_nil]
  | true =>
    have hone : [t].filter (isOf d) = [t] := List.filter_cons_of_pos hd
    rw [hone, is_of_congr hd, hself, h.find, Term.gather_concat]

theorem Gathers.add (h : Gathers table ts) (ht : t.degree.value.isNaN = false) :
    Gathers (table.add t) (ts ++ [t]) := by
  rw [Table.add]
  split_ifs with hany
  · have hnum := (numeric_iff_degrees _).mp h.numeric
    have hasc := (ascending_iff_degrees _).mp h.ascending
    rw [← degrees_increase t] at hnum hasc
    refine ⟨(numeric_iff_degrees _).mpr hnum, (ascending_iff_degrees _).mpr hasc,
      h.find_concat ?_ fun d hd => find_increase_other hd⟩
    have hsome : (table.terms.find? (isOf t.degree)).isSome = true := by
      rw [List.find?_isSome]
      exact List.any_eq_true.mp hany
    obtain ⟨u, hu⟩ := Option.isSome_iff_exists.mp hsome
    rw [find_increase_self, hu]
    rfl
  · have hnone : table.terms.find? (isOf t.degree) = none :=
      List.find?_eq_none.mpr fun u hu hsame => hany (List.any_eq_true.mpr ⟨u, hu, hsame⟩)
    obtain ⟨l, r, hterms, hl, hr⟩ := h.ascending.partition h.numeric ht
    have hnum := h.numeric
    have hasc := h.ascending
    rw [hterms] at hnum hasc hnone ⊢
    rw [place_between hl hr]
    refine ⟨?_, hasc.between hnum ht hnone hl hr, h.find_concat ?_ fun d hd => ?_⟩
    · intro u hu
      rcases List.mem_append.mp hu with hu | hu
      · exact hnum u (List.mem_append_left r hu)
      · rcases List.mem_cons.mp hu with rfl | hu
        · exact ht
        · exact hnum u (List.mem_append_right l hu)
    · rw [hterms, hnone]
      exact find_between_self (Degree.same_self ht) hnone
    · rw [hterms]
      exact find_between_other hd

theorem Gathers.add_all (h : Gathers table ts) {us : List Term} (hus : Numeric us) :
    Gathers (table.addAll us) (ts ++ us) := by
  induction us generalizing table ts with
  | nil =>
    rw [List.append_nil]
    exact h
  | cons u us ih =>
    obtain ⟨hu, hus⟩ := List.forall_mem_cons.mp hus
    rw [List.append_cons]
    exact ih (h.add hu) hus

theorem gathers_of_list (hts : Numeric ts) : Gathers (ofList ts) ts :=
  gathers_empty.add_all hts

end Filling

/-! ## The finished table -/

section Finished
variable {table : Table} {ts : List Term}

/-- There is one term of each degree at most. -/
theorem Ascending.filter_eq {us : List Term} (h : Ascending us) (d : Degree) :
    us.filter (isOf d) = (us.find? (isOf d)).toList := by
  induction us with
  | nil => rfl
  | cons u us ih =>
    obtain ⟨hfirst, hrest⟩ := List.pairwise_cons.mp h
    cases hu : isOf d u with
    | false =>
      have hneg : ¬isOf d u = true := by rw [hu]; decide
      rw [List.filter_cons_of_neg hneg, List.find?_cons_of_neg hneg, ih hrest]
    | true =>
      have hnone : us.filter (isOf d) = [] := by
        rw [is_of_congr hu, List.filter_eq_nil_iff]
        intro w hw hsame
        have hne := Degree.same_of_lt (hfirst w hw)
        rw [Degree.same_comm] at hne
        exact absurd hsame (Bool.eq_false_iff.mp hne)
      rw [List.filter_cons_of_pos hu, List.find?_cons_of_pos hu, hnone]
      rfl

theorem Gathers.filter (h : Gathers table ts) (d : Degree) :
    table.terms.filter (isOf d) = (Term.gather (ts.filter (isOf d))).toList := by
  rw [h.ascending.filter_eq, h.find]

theorem Gathers.coefficient_eq (h : Gathers table ts) (d : Degree) : table.coefficient d =
    ((Term.gather (ts.filter (isOf d))).map Term.coefficient).getD 0.0 := by
  rw [← h.find]
  rfl

/-- A term of the table is found under its own degree. -/
theorem Gathers.mem_iff (h : Gathers table ts) (u : Term) : u ∈ table.terms ↔
    u.degree.value.isNaN = false ∧ Term.gather (ts.filter (isOf u.degree)) = some u := by
  rw [← Option.mem_toList, ← h.filter, List.mem_filter]
  constructor
  · intro hu
    exact ⟨h.numeric u hu, hu, Degree.same_self (h.numeric u hu)⟩
  · rintro ⟨-, hu, -⟩
    exact hu

theorem Gathers.degree_mem (h : Gathers table ts) {u : Term} (hu : u ∈ table.terms) :
    ∃ t ∈ ts, t.degree = u.degree := by
  obtain ⟨t, ht, hdegree⟩ := Term.degree_gather ((h.mem_iff u).mp hu).2
  exact ⟨t, (List.mem_filter.mp ht).1, hdegree⟩

/-- Only the terms of each degree, in their order, make the table. -/
theorem Gathers.unique {other : Table} {us : List Term} (h : Gathers table ts)
    (h' : Gathers other us) (hsame : ∀ d, us.filter (isOf d) = ts.filter (isOf d)) :
    other = table := by
  have hirrefl : Std.Irrefl fun t u : Term => t.degree.value < u.degree.value :=
    ⟨fun t hlt => Number.not_lt_of_lt hlt hlt⟩
  have hantisymm : Std.Antisymm fun t u : Term => t.degree.value < u.degree.value :=
    ⟨fun t u hlt hgt => absurd hgt (Number.not_lt_of_lt hlt)⟩
  have hmem (u : Term) : u ∈ other.terms ↔ u ∈ table.terms := by
    rw [h.mem_iff, h'.mem_iff, hsame]
  have hterms : other.terms = table.terms := h'.ascending.eq_of_mem_iff h.ascending hmem
  exact congrArg Table.mk hterms

/-- Every list of terms with degrees fills a table that is strictly ascending, has degrees of the list
only, and has for each degree of the list one term, the sum of its terms from the first one on; a
coefficient is that sum, and zero for other degrees. What stands between the terms of a degree does
not matter. -/
theorem of_list_sorted_map (ts : List Term) (hts : ∀ t ∈ ts, t.degree.value.isNaN = false) :
    (ofList ts).terms.Pairwise (fun t u => t.degree.value < u.degree.value) ∧
      (∀ u ∈ (ofList ts).terms, ∃ t ∈ ts, t.degree = u.degree) ∧
      (∀ d, (ofList ts).terms.filter (isOf d) = (Term.gather (ts.filter (isOf d))).toList) ∧
      (∀ d, (ofList ts).coefficient d =
        ((Term.gather (ts.filter (isOf d))).map Term.coefficient).getD 0.0) ∧
      ∀ us : List Term, (∀ u ∈ us, u.degree.value.isNaN = false) →
        (∀ d, us.filter (isOf d) = ts.filter (isOf d)) → ofList us = ofList ts :=
  have h := gathers_of_list hts
  ⟨h.ascending, fun _ hu => h.degree_mem hu, h.filter, h.coefficient_eq,
    fun _ hus hsame => h.unique (gathers_of_list hus) hsame⟩

/-- The key `0.0` occurs in both spellings. -/
def mixedSample : List Term :=
  [⟨1.5, .number 2.0⟩, ⟨-1.0, .number 0.0⟩, ⟨2.0, .number 2.0⟩, ⟨3.0, .number (-0.0)⟩]

theorem of_list_sorted_map_sample :
    ofList mixedSample = ⟨[⟨2.0, .number 0.0⟩, ⟨3.5, .number 2.0⟩]⟩ ∧
      (ofList mixedSample).terms.Pairwise (fun t u => t.degree.value < u.degree.value) ∧
      ∀ us : List Term, (∀ u ∈ us, u.degree.value.isNaN = false) →
        (∀ d, us.filter (isOf d) = mixedSample.filter (isOf d)) → ofList us = ofList mixedSample := by
  have h := of_list_sorted_map mixedSample (by decide)
  exact ⟨by decide, h.1, h.2.2.2.2⟩

end Finished
end Table
end Trinomial
