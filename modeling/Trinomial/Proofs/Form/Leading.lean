import Trinomial.Form
import Trinomial.Proofs.Number.Negation
import Trinomial.Proofs.Number.Texts

/-! # The first monomial of a reduced form

A reduced form starts with the monomial of the table's degree, and is `0.0 = 0.0` only where there is
none: no coefficient that counts is shown as `0.0`, because its text is read as the coefficient.
-/
set_option autoImplicit false

namespace Trinomial

/-! ## Written monomials -/

namespace Table

/-- What a monomial of a degree is written as: a constant as its number, and the power of the unknown behind
its coefficient, unless that is near one. A number is any text that is read as it. -/
inductive Monomial (v : Float) : ℕ → String → Prop
  | constant {s : String} (hs : Number.read? s.toList = some v) : Monomial v 0 s
  | unknown (h : (1.0 - v).abs < Number.tolerance) : Monomial v 1 "X"
  | unknowns {s : String} (h : ¬(1.0 - v).abs < Number.tolerance)
    (hs : Number.read? s.toList = some v) : Monomial v 1 (s ++ " * X")
  | square (h : (1.0 - v).abs < Number.tolerance) : Monomial v 2 "X^2"
  | squares {s : String} (h : ¬(1.0 - v).abs < Number.tolerance)
    (hs : Number.read? s.toList = some v) : Monomial v 2 (s ++ " * X^2")

theorem shown_text_monomial {degree : ℕ} (h : degree = 2 ∨ degree = 1 ∨ degree = 0) (v : Float) :
    Monomial v degree (shownText degree v) := by
  have hfactor : factorText v =
      if (1.0 - v).abs < Number.tolerance then "" else Number.displayText v ++ " * " := by
    rw [factorText, Number.near]
    simp only [decide_eq_true_iff]
  rcases h with rfl | rfl | rfl
  · rw [shownText, hfactor]
    split_ifs with hone
    · exact .square hone
    · rw [String.append_assoc]
      exact .squares hone (Number.read_display_text v)
  · rw [shownText, hfactor]
    split_ifs with hone
    · exact .unknown hone
    · rw [String.append_assoc]
      exact .unknowns hone (Number.read_display_text v)
  · exact .constant (Number.read_display_text v)

/-- A monomial that could begin a zero is one. -/
theorem Monomial.negligible_of_zero_text {v : Float} {degree : ℕ} {first : String}
    (h : Monomial v degree first) (hzero : first.toList <+: ['0', '.', '0']) :
    Number.isNegligible v = true := by
  have hX : 'X' ∉ first.toList := fun hmem => absurd (hzero.subset hmem) (by decide)
  cases h with
  | constant hs =>
    have hcases : first.toList = [] ∨ first.toList = ['0'] ∨ first.toList = ['0', '.'] ∨
        first.toList = ['0', '.', '0'] := by
      simpa using (List.mem_inits first.toList ['0', '.', '0']).mpr hzero
    rcases hcases with h | h | h | h
    all_goals rw [h] at hs
    · cases hs
    · cases hs
      decide
    · cases hs
    · cases hs
      decide
  | unknown => exact absurd (by decide) hX
  | unknowns => exact absurd (by simp) hX
  | square => exact absurd (by decide) hX
  | squares => exact absurd (by simp) hX

/-! ## The reduced form -/

variable (t : Table)

/-- The coefficient of the table's degree. -/
def lead : Float :=
  match t.degree with
  | 2 => t.a
  | 1 => t.b
  | _ => t.c

theorem degree_cases :
    (t.degree = 2 ∧ t.lead = t.a ∧ Number.isNegligible t.a = false) ∨
      (t.degree = 1 ∧ t.lead = t.b ∧ Number.isNegligible t.a = true ∧
        Number.isNegligible t.b = false) ∨
      (t.degree = 0 ∧ t.lead = t.c ∧ Number.isNegligible t.a = true ∧
        Number.isNegligible t.b = true) := by
  rw [lead, degree]
  cases Number.isNegligible t.a with
  | false => exact .inl ⟨rfl, rfl, rfl⟩
  | true =>
    cases Number.isNegligible t.b with
    | false => exact .inr (.inl ⟨rfl, rfl, rfl, rfl⟩)
    | true => exact .inr (.inr ⟨rfl, rfl, rfl, rfl⟩)

theorem shown_terms_of_negligible (h : Number.isNegligible t.lead = true) : t.shownTerms = [] := by
  rw [shownTerms]
  rcases t.degree_cases with ⟨-, hlead, ha⟩ | ⟨-, hlead, -, hb⟩ | ⟨-, hlead, ha, hb⟩
  · rw [hlead, ha] at h
    cases h
  · rw [hlead, hb] at h
    cases h
  · rw [hlead] at h
    simp [ha, hb, h]

theorem shown_terms_of_counts (h : Number.isNegligible t.lead = false) :
    ∃ rest, t.shownTerms = (t.degree, t.lead) :: rest := by
  rw [shownTerms]
  rcases t.degree_cases with ⟨hdegree, hlead, -⟩ | ⟨hdegree, hlead, ha, -⟩ | ⟨hdegree, hlead, ha, hb⟩
  all_goals rw [hlead] at h
  · rw [hdegree, hlead]
    exact ⟨_, List.filter_cons_of_pos (by rw [h]; rfl)⟩
  · rw [hdegree, hlead]
    exact ⟨_, by simp [ha, h]; rfl⟩
  · rw [hdegree, hlead]
    exact ⟨[], by simp [ha, hb, h]⟩

/-- The coefficient of the table's degree, its sign turned where it is below zero. -/
def turnedLead : Float := if t.lead < 0.0 then -t.lead else t.lead

theorem lead_mul_turn (degree : ℕ) (rest : List (ℕ × Float)) :
    t.lead * turn ((degree, t.lead) :: rest) = t.turnedLead := by
  rw [turn, turnedLead]
  split_ifs
  · exact Number.float_mul_neg_one t.lead
  · exact Number.float_mul_one t.lead

theorem negligible_turned_lead : Number.isNegligible t.turnedLead = Number.isNegligible t.lead := by
  rw [turnedLead]
  split_ifs
  · exact Number.is_negligible_neg t.lead
  · rfl

theorem degree_le : t.degree = 2 ∨ t.degree = 1 ∨ t.degree = 0 := by
  rcases t.degree_cases with h | h | h
  · exact .inl h.1
  · exact .inr (.inl h.1)
  · exact .inr (.inr h.1)

/-- The reduced form is `0.0 = 0.0` for tables without a coefficient that counts. -/
theorem reduced_form_zero_iff :
    t.reducedForm = "0.0 = 0.0" ↔ Number.isNegligible t.lead = true := by
  constructor
  · intro h
    cases hcounts : Number.isNegligible t.lead with
    | true => rfl
    | false =>
      obtain ⟨rest, hterms⟩ := t.shown_terms_of_counts hcounts
      have hzero : ("0.0 = 0.0" : String) = "0.0" ++ " = 0.0" := by decide
      have hv : Number.isNegligible t.turnedLead = false := t.negligible_turned_lead.trans hcounts
      rw [reducedForm, hterms, reducedSide, t.lead_mul_turn, hzero, String.append_left_inj] at h
      have hnegligible := (shown_text_monomial t.degree_le t.turnedLead).negligible_of_zero_text
        ⟨_, String.toList_append.symm.trans (congrArg String.toList h)⟩
      rw [hv] at hnegligible
      cases hnegligible
  · intro h
    rw [reducedForm, t.shown_terms_of_negligible h, reducedSide]
    decide

theorem next_text_mark (degree : ℕ) (v : Float) :
    ∃ mark ∈ [" + ", " - "], ∃ rest, nextText degree v = mark ++ rest := by
  rw [nextText]
  split_ifs
  · exact ⟨" - ", by decide, _, rfl⟩
  · exact ⟨" + ", by decide, _, rfl⟩

/-- Otherwise it starts with the monomial of the table's degree, before the next sign. -/
theorem reduced_form_leads (h : Number.isNegligible t.lead = false) :
    ∃ first, Monomial t.turnedLead t.degree first ∧ ∃ mark ∈ [" + ", " - ", " = "], ∃ rest,
      t.reducedForm = first ++ mark ++ rest := by
  obtain ⟨terms, hterms⟩ := t.shown_terms_of_counts h
  refine ⟨_, shown_text_monomial t.degree_le t.turnedLead, ?_⟩
  have hform : t.reducedForm = shownText t.degree t.turnedLead ++
      String.join (terms.map fun p => nextText p.1 (p.2 * turn t.shownTerms)) ++ " = 0.0" := by
    rw [reducedForm, hterms, reducedSide, t.lead_mul_turn]
  rw [hform]
  cases terms with
  | nil => exact ⟨" = ", by decide, "0.0", by rw [String.append_assoc, String.append_assoc]; rfl⟩
  | cons p terms =>
    obtain ⟨mark, hmark, rest, hnext⟩ := next_text_mark p.1 (p.2 * turn t.shownTerms)
    refine ⟨mark, List.mem_append_left [" = "] hmark, rest ++ String.join
      (terms.map fun p => nextText p.1 (p.2 * turn t.shownTerms)) ++ " = 0.0", ?_⟩
    rw [List.map_cons, String.join_cons, hnext]
    simp only [String.append_assoc]

end Table
end Trinomial
