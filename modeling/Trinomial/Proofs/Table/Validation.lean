import Trinomial.Proofs.Number.Range
import Trinomial.Proofs.Table.Turning

/-! # Validation

Terms that are added find places in the order of their degrees, be these numbers or not. So what
validation keeps is in order, one term at most for each of the three degrees, and the first term that it
has to refuse is that of the least degree.
-/
set_option autoImplicit false

namespace Trinomial

/-! ## The order of degrees -/

namespace Degree
variable {d e f : Degree}

theorem not_before_iff_key : d.before e = false ↔ e.key ≤ d.key := by
  rw [Bool.eq_false_iff, Ne, before_iff_key, not_lt]

theorem not_before_of_before (h : d.before e = true) : e.before d = false :=
  not_before_iff_key.mpr (before_iff_key d e |>.mp h).le

theorem not_before_trans (h : e.before d = false) (h' : f.before e = false) : f.before d = false :=
  not_before_iff_key.mpr ((not_before_iff_key.mp h).trans (not_before_iff_key.mp h'))

/-- Supported degrees are numbers, on three places of the line. -/
theorem ordinal_of_supported (h : d.isSupported = true) : d.value.isNaN = false ∧
    Number.ordinal d.value ∈ [0, Number.ordinal 1.0, Number.ordinal 2.0] := by
  rw [isSupported, Bool.or_eq_true, Bool.or_eq_true] at h
  rcases h with (h | h) | h
  · obtain ⟨hd, -, hplace⟩ := Number.beq_iff.mp h
    exact ⟨hd, List.mem_cons.mpr (.inl hplace)⟩
  · obtain ⟨hd, -, hplace⟩ := Number.beq_iff.mp h
    exact ⟨hd, List.mem_cons_of_mem _ (List.mem_cons.mpr (.inl hplace))⟩
  · obtain ⟨hd, -, hplace⟩ := Number.beq_iff.mp h
    exact ⟨hd, List.mem_cons_of_mem _ (List.mem_cons_of_mem _ (List.mem_singleton.mpr hplace))⟩

end Degree

/-- What is not a number is never negligible. -/
theorem Number.not_negligible_of_nan {x : Float} (h : x.isNaN = true) : isNegligible x = false := by
  rw [Bool.eq_false_iff]
  intro hx
  rw [is_nan_of_finite (finite_of_negligible hx)] at h
  cases h

namespace Table

/-! ## Tables in order -/

/-- No term goes before an earlier one, and none has the degree of an earlier one. -/
def Ordered (us : List Term) : Prop :=
  us.Pairwise fun t u => u.degree.before t.degree = false ∧ t.degree.same u.degree = false

section Adding
variable {t : Term} {us : List Term} {table : Table}

theorem mem_place {w : Term} : w ∈ place t us ↔ w = t ∨ w ∈ us := by
  obtain ⟨l, r, rfl, hplace⟩ := place_between_parts t us
  rw [hplace, List.mem_append, List.mem_cons, List.mem_append]
  exact or_left_comm

theorem ordered_place (h : Ordered us) (hnew : holds us t.degree = false) : Ordered (place t us) := by
  induction us with
  | nil => exact List.pairwise_singleton _ t
  | cons u us ih =>
    obtain ⟨hfirst, hrest⟩ := List.pairwise_cons.mp h
    obtain ⟨hu, hus⟩ := Bool.or_eq_false_iff.mp hnew
    cases hbefore : u.degree.before t.degree with
    | true =>
      rw [place_behind _ hbefore]
      refine List.pairwise_cons.mpr ⟨fun w hw => ?_, ih hrest hus⟩
      rcases mem_place.mp hw with rfl | hw
      · exact ⟨Degree.not_before_of_before hbefore, hu⟩
      · exact hfirst w hw
    | false =>
      have hdiffer (w : Term) (hw : w ∈ u :: us) : t.degree.same w.degree = false :=
        (Degree.same_comm _ _).trans (Bool.eq_false_iff.mpr (List.any_eq_false.mp hnew w hw))
      rw [place_front _ hbefore]
      refine List.pairwise_cons.mpr ⟨List.forall_mem_cons.mpr ⟨?_, fun w hw => ?_⟩, h⟩
      · exact ⟨hbefore, hdiffer u List.mem_cons_self⟩
      · exact ⟨Degree.not_before_trans hbefore (hfirst w hw).1,
          hdiffer w (List.mem_cons_of_mem u hw)⟩

theorem ordered_increase (t : Term) (h : Ordered us) : Ordered (increase t us) := by
  have hdegrees (us : List Term) : Ordered us ↔ (us.map Term.degree).Pairwise
      fun d e => e.before d = false ∧ d.same e = false := by
    rw [Ordered, List.pairwise_map]
  rw [hdegrees, degrees_increase, ← hdegrees]
  exact h

theorem ordered_add (t : Term) (h : Ordered table.terms) : Ordered (table.add t).terms := by
  cases hholds : holds table.terms t.degree with
  | true =>
    rw [add_of_holds hholds]
    exact ordered_increase t h
  | false =>
    rw [add_of_missing hholds]
    exact ordered_place h hholds

theorem ordered_add_all (ts : List Term) (h : Ordered table.terms) :
    Ordered (table.addAll ts).terms := by
  induction ts generalizing table with
  | nil => exact h
  | cons t ts ih => exact ih (ordered_add t h)

theorem ordered_of_list (ts : List Term) : Ordered (ofList ts).terms :=
  ordered_add_all ts List.Pairwise.nil

end Adding

/-! ## What validation keeps -/

section Validating
variable (t : Table)

/-- The terms of degree 0, 1 or 2. -/
def supportedTerms : List Term := t.terms.filter fun u => u.degree.isSupported

/-- A term that can be neither kept nor dropped. -/
def isRefused (u : Term) : Bool := !u.degree.isSupported && u.counts

theorem is_refused_iff (u : Term) : isRefused u = true ↔
    u.degree.isSupported = false ∧ Number.isNegligible u.coefficient = false := by
  rw [isRefused, Term.counts, Bool.and_eq_true, Bool.not_eq_true', Bool.not_eq_true']

theorem find_refused : t.significant.find? (fun u => !u.degree.isSupported) =
    t.terms.find? isRefused := by
  rw [significant, List.find?_filter]
  congr 1
  funext u
  rw [isRefused]
  cases u.degree.isSupported <;> cases u.counts <;> rfl

variable {t}

theorem significant_eq (h : t.terms.find? isRefused = none) : t.significant = t.supportedTerms := by
  refine List.filter_congr fun u hu => ?_
  have hkept := Bool.eq_false_iff.mpr (List.find?_eq_none.mp h u hu)
  rw [isRefused] at hkept
  cases hsupported : u.degree.isSupported with
  | true => rfl
  | false =>
    rw [hsupported] at hkept
    exact hkept

theorem validate_of_none (h : t.terms.find? isRefused = none) :
    t.validate = .ok ⟨t.supportedTerms⟩ := by
  rw [validate, find_refused, h, significant_eq h]

theorem validate_of_some {w : Term} (h : t.terms.find? isRefused = some w) :
    t.validate = .error (.unsupportedDegree w.degree) := by
  rw [validate, find_refused, h]

theorem terms_of_validate {u : Table} (h : t.validate = .ok u) : u.terms = t.supportedTerms := by
  cases hfind : t.terms.find? isRefused with
  | none =>
    rw [validate_of_none hfind] at h
    cases h
    rfl
  | some w =>
    rw [validate_of_some hfind] at h
    cases h

/-- All three coefficients are read as before. -/
theorem coefficients_of_validate {u : Table} (h : t.validate = .ok u) :
    u.a = t.a ∧ u.b = t.b ∧ u.c = t.c :=
  ⟨coefficient_validate (by decide) h, coefficient_validate (by decide) h,
    coefficient_validate (by decide) h⟩

theorem validate_again {u : Table} (h : t.validate = .ok u) : u.validate = .ok u := by
  have hterms := terms_of_validate h
  have hnone : u.terms.find? isRefused = none := by
    rw [List.find?_eq_none, hterms]
    intro w hw
    rw [is_refused_iff, (List.mem_filter.mp hw).2]
    exact fun hw => absurd hw.1 (by decide)
  have hkept : u.supportedTerms = u.terms := by
    rw [supportedTerms, hterms]
    exact List.filter_eq_self.mpr fun w hw => (List.mem_filter.mp hw).2
  rw [validate_of_none hnone, hkept]

/-! ## What validation refuses -/

theorem validate_eq_ok_iff : (∃ u, t.validate = .ok u) ↔ ∀ w ∈ t.terms,
    w.degree.isSupported = false → Number.isNegligible w.coefficient = true := by
  cases hfind : t.terms.find? isRefused with
  | none =>
    refine iff_of_true ⟨_, validate_of_none hfind⟩ fun w hw hsupported => ?_
    have hkept := List.find?_eq_none.mp hfind w hw
    rw [is_refused_iff, not_and, Bool.not_eq_false] at hkept
    exact hkept hsupported
  | some w =>
    obtain ⟨hsupported, hcounts⟩ := (is_refused_iff w).mp (List.find?_some hfind)
    refine iff_of_false (fun ⟨u, hu⟩ => ?_) fun hall => ?_
    · rw [validate_of_some hfind] at hu
      cases hu
    · rw [hall w (List.mem_of_find?_eq_some hfind) hsupported] at hcounts
      cases hcounts

/-- The first refused term of a table in order has the least degree. -/
theorem Ordered.find_least {us : List Term} (h : Ordered us) (hnum : Numeric us) {w : Term}
    (hfind : us.find? isRefused = some w) {v : Term} (hv : v ∈ us) (hrefused : isRefused v = true) :
    v = w ∨ w.degree.value < v.degree.value := by
  obtain ⟨-, before, behind, rfl, hbefore⟩ := List.find?_eq_some_iff_append.mp hfind
  rcases List.mem_append.mp hv with hv | hv
  · have hkept := hbefore v hv
    rw [hrefused] at hkept
    cases hkept
  · rcases List.mem_cons.mp hv with rfl | hv'
    · exact .inl rfl
    · have hbehind := (List.pairwise_append.mp h).2.1
      obtain ⟨hplace, hdiffer⟩ := (List.pairwise_cons.mp hbehind).1 v hv'
      have hw := hnum w (List.mem_append_right before List.mem_cons_self)
      have hv := hnum v (List.mem_append_right before (List.mem_cons_of_mem w hv'))
      exact .inr (Degree.lt_of_not_before hv hw ((Degree.same_comm _ _).trans hdiffer) hplace)

end Validating

/-! ## What is left -/

/-- At most three terms, of strictly increasing degrees, each of them 0, 1 or 2. -/
structure Solvable (t : Table) : Prop where
  length : t.terms.length ≤ 3
  ascending : Ascending t.terms
  supported : ∀ u ∈ t.terms, u.degree.isSupported = true

theorem Ordered.ascending_supported {us : List Term} (h : Ordered us)
    (hus : ∀ u ∈ us, u.degree.isSupported = true) : Ascending us := by
  refine h.imp_of_mem fun {t u} ht hu hplace => ?_
  have hnum (w : Term) (hw : w ∈ us) := (Degree.ordinal_of_supported (hus w hw)).1
  exact Degree.lt_of_not_before (hnum u hu) (hnum t ht) ((Degree.same_comm _ _).trans hplace.2)
    hplace.1

theorem solvable_of_ordered {us : List Term} (h : Ordered us)
    (hus : ∀ u ∈ us, u.degree.isSupported = true) : Solvable ⟨us⟩ := by
  have hasc := h.ascending_supported hus
  refine ⟨?_, hasc, hus⟩
  -- the degrees stand on three places of the line, no two on one
  let places := us.map fun u => Number.ordinal u.degree.value
  have hnodup : places.Nodup := by
    refine List.pairwise_map.mpr (hasc.imp fun {t u} hlt => ?_)
    obtain ⟨ht, hu⟩ := Number.is_nan_of_lt hlt
    exact ((Number.lt_iff_ordinal ht hu).mp hlt).ne
  have hsubset : places ⊆ [0, Number.ordinal 1.0, Number.ordinal 2.0] := by
    intro k hk
    obtain ⟨u, hu, rfl⟩ := List.mem_map.mp hk
    exact (Degree.ordinal_of_supported (hus u hu)).2
  have hlength := (List.subperm_of_subset hnodup hsubset).length_le
  rwa [List.length_map] at hlength

theorem solvable_of_validate {t u : Table} (h : Ordered t.terms) (hu : t.validate = .ok u) :
    Solvable u := by
  have hterms : u.terms = t.supportedTerms := terms_of_validate hu
  have hordered : Ordered u.terms := by
    rw [hterms]
    exact h.filter _
  refine solvable_of_ordered hordered fun w hw => ?_
  rw [hterms] at hw
  exact (List.mem_filter.mp hw).2

theorem ordered_raw_table {ts : List Token} {raw : Table}
    (h : (Equation.rawTable ts).result = .ok raw) : Ordered raw.terms := by
  have hside {r : SideReading} {table after : Table} (htable : Ordered table.terms)
      (hr : (r.addTo table).result = .ok after) : Ordered after.terms := by
    rw [SideReading.addTo] at hr
    dsimp only at hr
    split at hr
    · cases hr
    · cases hr
      exact ordered_add_all r.terms htable
  rw [Equation.rawTable, Traced.result_bind] at h
  obtain ⟨⟨left, right⟩, -, h⟩ := bind_eq_ok.mp h
  rw [Traced.result_bind] at h
  obtain ⟨table, hleft, hright⟩ := bind_eq_ok.mp h
  exact hside (hside List.Pairwise.nil hleft) hright

theorem solvable_of_text {s : String} {t : Table} (h : (Equation.table s).result = .ok t) :
    Solvable t := by
  obtain ⟨ts, raw, -, hraw, hvalid⟩ := Equation.table_eq_ok.mp h
  exact solvable_of_validate (ordered_raw_table hraw) hvalid

/-! ## Validation as a whole -/

/-- What validation says about a table. -/
structure ValidatedExactly (t : Table) : Prop where
  /-- It succeeds if and only if the terms of other degrees than 0, 1 and 2 are negligible. -/
  accepted_iff : (∃ u, t.validate = .ok u) ↔ ∀ w ∈ t.terms,
    w.degree.isSupported = false → Number.isNegligible w.coefficient = true
  /-- It then keeps the terms of degrees 0, 1 and 2 as they are, and these are all that is read. -/
  kept : ∀ u, t.validate = .ok u →
    u.terms = t.terms.filter (fun w => w.degree.isSupported) ∧
      (u.a = t.a ∧ u.b = t.b ∧ u.c = t.c) ∧ u.degree = t.degree ∧
      u.reducedForm = t.reducedForm ∧ u.canonicalForm = t.canonicalForm ∧ u.solve = t.solve ∧
      u.validate = .ok u
  /-- Otherwise it names the least unsupported degree whose coefficient is not negligible. -/
  refused : ∀ e, t.validate = .error e → ∃ w ∈ t.terms, e = .unsupportedDegree w.degree ∧
    w.degree.isSupported = false ∧ Number.isNegligible w.coefficient = false ∧
    ∀ v ∈ t.terms, v.degree.isSupported = false → Number.isNegligible v.coefficient = false →
      v = w ∨ w.degree.value < v.degree.value

theorem validated_exactly {t : Table} (h : Ordered t.terms) (hnum : Numeric t.terms) :
    ValidatedExactly t where
  accepted_iff := validate_eq_ok_iff
  kept u hu := by
    obtain ⟨ha, hb, hc⟩ := coefficients_of_validate hu
    refine ⟨terms_of_validate hu, ⟨ha, hb, hc⟩, ?_, ?_, ?_, ?_, validate_again hu⟩
    · rw [degree, degree, ha, hb]
    · rw [reducedForm, reducedForm, shownTerms, shownTerms, ha, hb, hc]
    · rw [canonicalForm, canonicalForm, ha, hb, hc]
    · rw [solve, solve, ha, hb, hc]
  refused e he := by
    cases hfind : t.terms.find? isRefused with
    | none =>
      rw [validate_of_none hfind] at he
      cases he
    | some w =>
      obtain ⟨hsupported, hcounts⟩ := (is_refused_iff w).mp (List.find?_some hfind)
      rw [validate_of_some hfind] at he
      cases he
      refine ⟨w, List.mem_of_find?_eq_some hfind, rfl, hsupported, hcounts, fun v hv hs hc => ?_⟩
      exact h.find_least hnum hfind hv ((is_refused_iff v).mpr ⟨hs, hc⟩)

/-- Validation is exact for every table that is filled with terms of some degree; what it makes of the
terms of a text has three terms at most, in strictly ascending order, whether the text has terms
without a degree or not. -/
theorem validation_exact :
    (∀ ts : List Term, (∀ t ∈ ts, t.degree.value.isNaN = false) → ValidatedExactly (ofList ts)) ∧
      (∀ x : Float, x.isNaN = true → Number.isNegligible x = false) ∧
      ∀ (s : String) (t : Table), (Equation.table s).result = .ok t → Solvable t :=
  ⟨fun ts hts => validated_exactly (ordered_of_list ts) (gathers_of_list hts).numeric,
    fun _ => Number.not_negligible_of_nan, fun _ _ => solvable_of_text⟩

/-- Degree 3 cancels, and of the other two that are not supported `-1` is the least. -/
def refusedSample : List Term :=
  [⟨1.0, .number 3.0⟩, ⟨0.7, .number 1.5⟩, ⟨-1.0, .number 3.0⟩, ⟨2.0, .number 1.0⟩,
    ⟨0.5, .number (-1.0)⟩]

/-- The exponents in the text are infinite, and their difference is no number. -/
theorem validation_exact_sample :
    (ofList refusedSample).validate = .error (.unsupportedDegree (.number (-1.0))) ∧
      ValidatedExactly (ofList refusedSample) ∧ Number.isNegligible (0.0 / 0.0) = false ∧
      (Equation.table "0*X^9^512/X^9^512+X=2").result =
        .ok ⟨[⟨-2.0, .number 0.0⟩, ⟨1.0, .number 1.0⟩]⟩ ∧
      Solvable ⟨[⟨-2.0, .number 0.0⟩, ⟨1.0, .number 1.0⟩]⟩ := by
  have htext : (Equation.table "0*X^9^512/X^9^512+X=2").result =
      .ok ⟨[⟨-2.0, .number 0.0⟩, ⟨1.0, .number 1.0⟩]⟩ := by
    decide +kernel
  exact ⟨by decide, validation_exact.1 refusedSample (by decide), validation_exact.2.1 _ (by decide),
    htext, validation_exact.2.2 _ _ htext⟩

end Table
end Trinomial
