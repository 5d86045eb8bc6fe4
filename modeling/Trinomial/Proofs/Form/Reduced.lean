import Trinomial.Proofs.Form.Leading
import Trinomial.Proofs.Form.Monomials
import Trinomial.Proofs.Table.Validation

/-! # The reduced form, read again

The reduced form of a table is read as the table it displays: what is left out is zero, what is not written
is one, all signs are turned if the first one is, and nothing else changes. The table that is read has the
same reduced form.
-/
set_option autoImplicit false

namespace Trinomial.Table
open Grammar Number

/-! ## The table of a side -/

/-- `0.0` on the right side. -/
def zeroNumeral : Numeral :=
  ⟨['0'], ['0'], List.cons_ne_nil _ _, List.forall_mem_singleton.mpr rfl,
    List.forall_mem_singleton.mpr rfl⟩

theorem zero_numeral_value : (numeralTerm zeroNumeral).value = .ok ⟨0.0, .number 0.0⟩ :=
  numeral_term_value zeroNumeral

theorem zero_writes : Token.Writes "0.0" (numeralTerm zeroNumeral).tokens :=
  Token.writes_numeral zeroNumeral

theorem zero_towers : ∀ u ∈ (numeralTerm zeroNumeral).towers, u.atoms.length ≤ towerLimit := by
  decide

/-- What the right side adds. -/
def zeroTerm : Term := ⟨-0.0, .number 0.0⟩

/-- A text of a side and ` = 0.0` is read as the table of the side's terms. -/
theorem table_of_side {text : String} {side : SideTree} {ts : List Term}
    (hwrites : Token.Writes text side.tokens)
    (hsum : (side.signedTerms 1.0).foldlM addSigned {} = .ok (ofList ts))
    (htowers : ∀ u ∈ side.towers, u.atoms.length ≤ towerLimit)
    (hts : ∀ t ∈ ts, t.degree.isSupported = true) : ∃ t',
    (Equation.table (text ++ " = 0.0")).result = .ok t' ∧
      t'.a = (ofList (ts ++ [zeroTerm])).a ∧ t'.b = (ofList (ts ++ [zeroTerm])).b ∧
      t'.c = (ofList (ts ++ [zeroTerm])).c := by
  let tree : EquationTree := ⟨side, ⟨numeralTerm zeroNumeral, []⟩⟩
  have htree : Token.Writes (text ++ " = 0.0") tree.tokens := by
    have hzero : Token.Writes (" = " ++ "0.0") (.equals :: tree.right.tokens) :=
      zero_writes.symbol " = " .equals (by decide) rfl
    exact hwrites.append hzero (by rintro _ ⟨⟩; rfl)
  have hright : (tree.right.signedTerms (-1.0)).foldlM addSigned (ofList ts) =
      .ok (ofList (ts ++ [zeroTerm])) := by
    have hscale : Term.scale ⟨0.0, .number 0.0⟩ (-1.0) = zeroTerm := by decide
    change List.foldlM addSigned (ofList ts) [(-1.0, numeralTerm zeroNumeral)] = _
    rw [List.foldlM_cons, addSigned, zero_numeral_value, map_ok, ok_bind, hscale, ofList, addAll, ofList,
      addAll, List.foldl_append]
    rfl
  have hraw : (Equation.rawTable tree.tokens).result = .ok (ofList (ts ++ [zeroTerm])) := by
    rw [read_equation_tokens (e := tree) htowers zero_towers, EquationTree.value, List.foldlM_append, hsum, ok_bind,
      hright]
  have hsupported : ∀ t ∈ ts ++ [zeroTerm], t.degree.isSupported = true :=
    List.forall_mem_append.mpr ⟨hts, List.forall_mem_singleton.mpr (by decide)⟩
  have hgathers : Gathers (ofList (ts ++ [zeroTerm])) (ts ++ [zeroTerm]) :=
    gathers_of_list fun t ht => (Degree.ordinal_of_supported (hsupported t ht)).1
  obtain ⟨t', ht'⟩ := validate_eq_ok_iff.mpr fun w hw hrefused => by
    obtain ⟨t, ht, hdegree⟩ := hgathers.degree_mem hw
    rw [← hdegree, hsupported t ht] at hrefused
    cases hrefused
  exact ⟨t', Equation.table_eq_ok.mpr ⟨_, _, Token.scan_text_letters htree.printable htree.visible, hraw, ht'⟩,
    coefficients_of_validate ht'⟩

/-- A side without terms is written as zero. -/
theorem table_of_zero : ∃ t', (Equation.table ("0.0" ++ " = 0.0")).result = .ok t' ∧
    t'.a = 0.0 ∧ t'.b = 0.0 ∧ t'.c = 0.0 := by
  have hsum : ((SideTree.mk (numeralTerm zeroNumeral) []).signedTerms 1.0).foldlM addSigned {} =
      .ok (ofList [⟨0.0, .number 0.0⟩]) := by
    have hscale : Term.scale ⟨0.0, .number 0.0⟩ 1.0 = ⟨0.0, .number 0.0⟩ := by decide
    change List.foldlM addSigned {} [(1.0, numeralTerm zeroNumeral)] = _
    rw [List.foldlM_cons, addSigned, zero_numeral_value, map_ok, ok_bind, hscale]
    rfl
  exact table_of_side zero_writes hsum zero_towers (by decide)

/-! ## The displayed terms -/

/-- `-1.0` if the highest coefficient that counts is negative, and `1.0` otherwise. -/
def leadSign (t : Table) : Float :=
  if isNegligible t.lead = false ∧ t.lead < 0.0 then -1.0 else 1.0

/-- The terms of the reduced form, their signs turned if the first one is negative. -/
def displayed (t : Table) : List (ℕ × Float) := t.shownTerms.map fun p => (p.1, p.2 * t.leadSign)

theorem shown_cases {t : Table} {p : ℕ × Float} (h : p ∈ t.shownTerms) :
    isNegligible p.2 = false ∧ (p = (2, t.a) ∨ p = (1, t.b) ∨ p = (0, t.c)) := by
  simpa [shownTerms, and_comm] using h

section Displayed
variable (t : Table)

theorem turn_eq_lead_sign : turn t.shownTerms = t.leadSign := by
  rw [leadSign]
  cases hcounts : isNegligible t.lead with
  | true =>
    rw [t.shown_terms_of_negligible hcounts, if_neg (by simp)]
    rfl
  | false =>
    obtain ⟨rest, hterms⟩ := t.shown_terms_of_counts hcounts
    simp [hterms, turn]

theorem mul_lead_sign (v : Float) : v * t.leadSign = v ∨ v * t.leadSign = -v := by
  rw [leadSign]
  split_ifs
  · exact .inr (Number.float_mul_neg_one v)
  · exact .inl (Number.float_mul_one v)

theorem positional_turned {v : Float} (h : Positional v) : Positional (v * t.leadSign) := by
  rcases t.mul_lead_sign v with hv | hv
  · rwa [hv]
  · rw [hv]
    exact h.neg

theorem first_not_negative {p : ℕ × Float} {ps : List (ℕ × Float)} (h : t.displayed = p :: ps) :
    ¬p.2 < 0.0 := by
  cases hterms : t.shownTerms with
  | nil =>
    rw [displayed, hterms] at h
    cases h
  | cons q qs =>
    rw [displayed, ← turn_eq_lead_sign, hterms] at h
    cases h
    change ¬q.2 * (if q.2 < 0.0 then -1.0 else 1.0) < 0.0
    split_ifs with hneg
    · rw [float_mul_neg_one]
      exact fun hlt => not_lt_of_lt hneg (pos_of_neg_lt_zero hlt)
    · rwa [float_mul_one]

variable {t} in
theorem negligible_of_empty (h : t.displayed = []) :
    isNegligible t.a = true ∧ isNegligible t.b = true ∧ isNegligible t.c = true := by
  have hterms : t.shownTerms = [] := List.map_eq_nil_iff.mp h
  simpa [shownTerms] using hterms

theorem reduced_form_empty (h : t.displayed = []) : t.reducedForm = "0.0" ++ " = 0.0" := by
  rw [reducedForm, List.map_eq_nil_iff.mp h]
  rfl

theorem reduced_form_displayed {p : ℕ × Float} {ps : List (ℕ × Float)} (h : t.displayed = p :: ps) :
    t.reducedForm =
      shownText p.1 p.2 ++ String.join (ps.map fun q => nextText q.1 q.2) ++ " = 0.0" := by
  obtain ⟨q, qs, hterms, rfl, rfl⟩ := List.map_eq_cons_iff.mp h
  rw [reducedForm, hterms, reducedSide, ← hterms, turn_eq_lead_sign, List.map_map]
  rfl

variable {t} (h : ∀ v ∈ [t.a, t.b, t.c], isNegligible v = true ∨ Positional v)
include h

theorem displayed_showable : Showable t.displayed := by
  intro p hp
  obtain ⟨q, hq, rfl⟩ := List.mem_map.mp hp
  obtain ⟨hcounts, hcases⟩ := shown_cases hq
  have hpositional (v : Float) (hv : v ∈ [t.a, t.b, t.c]) (hcounts : isNegligible v = false) :
      Positional (v * t.leadSign) :=
    t.positional_turned ((h v hv).resolve_left (Bool.eq_false_iff.mp hcounts))
  rcases hcases with rfl | rfl | rfl
  · exact ⟨.inl rfl, hpositional _ (by simp) hcounts⟩
  · exact ⟨.inr (.inl rfl), hpositional _ (by simp) hcounts⟩
  · exact ⟨.inr (.inr rfl), hpositional _ (by simp) hcounts⟩

end Displayed

/-! ## The table that is read -/

/-- The table that the reduced form displays: what is negligible is zero, and what counts has the displayed
sign; before the unknown, what is near one or minus one is that. -/
structure ReadsBack (t t' : Table) : Prop where
  a : t'.a = if isNegligible t.a then 0.0 else readBack 2 (t.a * t.leadSign)
  b : t'.b = if isNegligible t.b then 0.0 else readBack 1 (t.b * t.leadSign)
  c : isNegligible t.c = false → t'.c = t.c * t.leadSign
  c_zero : isNegligible t.c = true → (t'.c == 0.0) = true

theorem supported_read_terms (ps : List (ℕ × Float)) :
    ∀ t ∈ ps.map readTerm, t.degree.isSupported = true := by
  refine List.forall_mem_map.mpr fun p _ => ?_
  rw [readTerm]
  dsimp only [degreeOf]
  split <;> decide

/-- Each coefficient comes from the one term of its degree, and the constant also from the right side. -/
theorem coefficients_displayed (t : Table) :
    (ofList (t.displayed.map readTerm ++ [zeroTerm])).a =
        (if isNegligible t.a then 0.0 else readBack 2 (t.a * t.leadSign)) ∧
      (ofList (t.displayed.map readTerm ++ [zeroTerm])).b =
        (if isNegligible t.b then 0.0 else readBack 1 (t.b * t.leadSign)) ∧
      (ofList (t.displayed.map readTerm ++ [zeroTerm])).c =
        if isNegligible t.c then -0.0 else t.c * t.leadSign := by
  have hgathers : Gathers (ofList (t.displayed.map readTerm ++ [zeroTerm]))
      (t.displayed.map readTerm ++ [zeroTerm]) :=
    gathers_of_list fun u hu => by
      rcases List.mem_append.mp hu with hu | hu
      · exact (Degree.ordinal_of_supported (supported_read_terms _ u hu)).1
      · rw [List.mem_singleton.mp hu]
        decide
  rw [Table.a, Table.b, Table.c, hgathers.coefficient_eq, hgathers.coefficient_eq, hgathers.coefficient_eq]
  have hof (d e : Degree) (v : Float) : isOf d ⟨v, e⟩ = e.same d := rfl
  have hconstant (v : Float) : readBack 0 v = v := rfl
  rw [displayed, shownTerms]
  -- each coefficient is shown or left out
  cases ha : isNegligible t.a <;> cases hb : isNegligible t.b <;> cases hc : isNegligible t.c <;>
    simp [ha, hb, hc, readTerm, zeroTerm, degreeOf, hof, same_degrees, Term.gather, Term.plus, hconstant,
      float_add_neg_zero]

theorem exists_read {t : Table} (h : ∀ v ∈ [t.a, t.b, t.c], isNegligible v = true ∨ Positional v) :
    ∃ t', (Equation.table t.reducedForm).result = .ok t' ∧ ReadsBack t t' := by
  obtain ⟨ha, hb, hc⟩ := coefficients_displayed t
  cases hterms : t.displayed with
  | nil =>
    obtain ⟨hna, hnb, hnc⟩ := negligible_of_empty hterms
    obtain ⟨t', ht', ha', hb', hc'⟩ := table_of_zero
    refine ⟨t', ?_, ?_, ?_, ?_, fun _ => ?_⟩
    · rw [t.reduced_form_empty hterms, ht']
    · rw [ha', hna, if_pos rfl]
    · rw [hb', hnb, if_pos rfl]
    · rw [hnc]
      nofun
    · rw [hc']
      decide
  | cons p ps =>
    have hshow := displayed_showable h
    rw [hterms] at hshow ha hb hc
    obtain ⟨side, hwrites, hsum, htowers⟩ := exists_side hshow (t.first_not_negative hterms)
    obtain ⟨t', ht', ha', hb', hc'⟩ := table_of_side hwrites hsum htowers (supported_read_terms _)
    refine ⟨t', ?_, ha'.trans ha, hb'.trans hb, fun hcounts => ?_, fun hzero => ?_⟩
    · rw [t.reduced_form_displayed hterms]
      exact ht'
    · rw [hc', hc, if_neg (by rw [hcounts]; decide)]
    · rw [hc', hc, if_pos hzero]
      decide

/-! ## The reduced form of the table that is read -/

section Texts
variable {w : Float} {degree : ℕ} (hw : Positional w) (hdegree : degree = 2 ∨ degree = 1 ∨ degree = 0)
include hw

theorem read_back_counts (degree : ℕ) : isNegligible (readBack degree w) = false := by
  rw [readBack]
  split_ifs
  · exact hw.counts
  · decide
  · decide
  · exact hw.counts

include hdegree in
theorem read_back_positive_text (hneg : ¬w < 0.0) : 0.0 < readBack degree w ∧
    shownText degree (readBack degree w) = shownText degree w := by
  obtain ⟨hlo, hhi⟩ := hw.range hneg
  have hpos := (signed_of_counts (is_nan_of_finite hw.finite) hw.counts).resolve_left hneg
  rw [read_back_positive hw.finite hlo hhi]
  split_ifs with hzero hnear
  · exact ⟨hpos, rfl⟩
  · refine ⟨by decide, ?_⟩
    have hfactor : factorText 1.0 = factorText w := by
      rw [factorText, factorText, if_pos hnear]
      rfl
    rcases hdegree with rfl | rfl | rfl
    · rw [shownText, shownText, hfactor]
    · rw [shownText, shownText, hfactor]
    · exact absurd rfl hzero
  · exact ⟨hpos, rfl⟩

include hdegree in
theorem next_text_back : nextText degree (readBack degree w) = nextText degree w := by
  by_cases hneg : w < 0.0
  · have hpos : ¬-w < 0.0 := fun hlt => not_lt_of_lt hneg (pos_of_neg_lt_zero hlt)
    obtain ⟨hlo, hhi⟩ := hw.neg_range hneg
    obtain ⟨hback, htext⟩ := read_back_positive_text hw.neg hdegree hpos
    have hnot := not_near_neg_one hw.neg.finite hlo hhi
    have hturn := read_back_neg degree hnot
    rw [float_neg_neg] at hturn
    rw [nextText, nextText, hturn, if_pos hneg, float_neg_neg, htext,
      if_pos ((neg_lt_zero_iff (is_nan_of_lt hback).2).mpr hback)]
  · obtain ⟨hback, htext⟩ := read_back_positive_text hw hdegree hneg
    rw [nextText, nextText, if_neg hneg, if_neg (not_lt_of_lt hback), htext]

end Texts

section Again
variable {t t' : Table} (h : ∀ v ∈ [t.a, t.b, t.c], isNegligible v = true ∨ Positional v)
  (hread : ReadsBack t t')
include h hread

/-- The same terms are shown, each with what its coefficient is read back as. -/
theorem shown_terms_read : t'.shownTerms = t.displayed.map fun p => (p.1, readBack p.1 p.2) := by
  have hcounts {v : Float} (hv : v ∈ [t.a, t.b, t.c]) (hne : isNegligible v = false) (degree : ℕ) :
      isNegligible (readBack degree (v * t.leadSign)) = false :=
    read_back_counts (t.positional_turned ((h v hv).resolve_left (Bool.eq_false_iff.mp hne))) degree
  have hconstant (hc : isNegligible t.c = false) : isNegligible (t.c * t.leadSign) = false :=
    hcounts (by simp) hc 0
  have hzero (hc : isNegligible t.c = true) : isNegligible t'.c = true :=
    negligible_of_zero (zero_parts_of_beq (hread.c_zero hc)).choose_spec
  have hnegligible : isNegligible 0.0 = true := by decide
  have hback (v : Float) : readBack 0 v = v := rfl
  rw [displayed, shownTerms, shownTerms, hread.a, hread.b]
  cases ha : isNegligible t.a <;> cases hb : isNegligible t.b <;> cases hc : isNegligible t.c <;>
    simp [ha, hb, hc, hcounts, hconstant, hzero, hnegligible, hback, hread.c]

theorem reduced_form_again : t'.reducedForm = t.reducedForm := by
  have hterms := shown_terms_read h hread
  cases hdisplayed : t.displayed with
  | nil =>
    rw [t.reduced_form_empty hdisplayed, reducedForm, hterms, hdisplayed]
    rfl
  | cons p ps =>
    obtain ⟨⟨hdegree, hp⟩, hps⟩ := List.forall_mem_cons.mp (hdisplayed ▸ displayed_showable h)
    obtain ⟨hpos, htext⟩ := read_back_positive_text hp hdegree (t.first_not_negative hdisplayed)
    have hturn : turn ((p.1, readBack p.1 p.2) :: ps.map fun q => (q.1, readBack q.1 q.2)) = 1.0 :=
      if_neg (not_lt_of_lt hpos)
    have hnext : ((ps.map fun q => (q.1, readBack q.1 q.2)).map fun q => nextText q.1 (q.2 * 1.0)) =
        ps.map fun q => nextText q.1 q.2 := by
      rw [List.map_map]
      refine List.map_congr_left fun q hq => ?_
      rw [Function.comp_apply, float_mul_one, next_text_back (hps q hq).2 (hps q hq).1]
    rw [t.reduced_form_displayed hdisplayed, reducedForm, hterms, hdisplayed, List.map_cons, reducedSide,
      hturn, hnext, float_mul_one, htext]

end Again

/-- The reduced form of coefficients that are negligible or of ordinary size, read again, is the table that
it displays, and has the same reduced form. -/
theorem reduced_form_read {t : Table}
    (h : ∀ v ∈ [t.a, t.b, t.c], isNegligible v = true ∨ Positional v) :
    ∃ t', (Equation.table t.reducedForm).result = .ok t' ∧ ReadsBack t t' ∧
      t'.reducedForm = t.reducedForm := by
  obtain ⟨t', ht', hread⟩ := exists_read h
  exact ⟨t', ht', hread, reduced_form_again h hread⟩

/-- `-X^2 + 2.5*X - 0.0001 = 0`. -/
def turnedSample : Table := ⟨[⟨-1e-4, .number 0.0⟩, ⟨2.5, .number 1.0⟩, ⟨-1.0, .number 2.0⟩]⟩

theorem reduced_form_read_sample : turnedSample.reducedForm = "X^2 - 2.5 * X + 0.0001 = 0.0" ∧
    ∃ t', (Equation.table turnedSample.reducedForm).result = .ok t' ∧
      t'.a = 1.0 ∧ t'.b = -2.5 ∧ t'.c = 1e-4 ∧ t'.reducedForm = turnedSample.reducedForm := by
  obtain ⟨t', ht', hread, hform⟩ := reduced_form_read (t := turnedSample) (by decide +kernel)
  exact ⟨by decide +kernel, t', ht', hread.a.trans (by decide +kernel), hread.b.trans (by decide +kernel),
    (hread.c (by decide +kernel)).trans (by decide +kernel), hform⟩

end Trinomial.Table
