import Trinomial.Proofs.Form.Canonical

/-! # The solver and the sign of zero

Reading a canonical form turns a coefficient `-0.0` into `0.0`. No formula of the solver and no shown
text depends on that, so the answer to a canonical form is the answer it was printed with.
-/
set_option autoImplicit false

namespace Trinomial

open Number (Blind)
open Solution (withoutNegativeZero)

/-! ## The formulas -/

namespace Solution
variable (a b c : Float)

theorem discriminant_blind_b : Blind fun b => discriminantOf a b c := by
  have h : (0.0 : Float) * 0.0 = -0.0 * -0.0 := by decide
  change 0.0 * 0.0 - 4.0 * a * c = -0.0 * -0.0 - 4.0 * a * c
  rw [h]

theorem discriminant_blind_c : Blind fun c => discriminantOf a b c :=
  (Number.blind_sub_right (Number.square_ne_neg_zero b)).mul (4.0 * a)

theorem vertex_blind {β : Type} {f : Float → β} (hf : Blind f) : Blind fun b => f (vertex a b) :=
  (hf.div (2.0 * a)).neg

theorem quadratic_blind_b : Blind fun b => quadratic a b c := by
  have hd := discriminant_blind_b a c
  have hvertex := vertex_blind a Number.blind_without_negative_zero
  have hunsigned := vertex_blind a Number.blind_unsigned_if_negligible
  have hplus (r : Float) : Blind fun b => withoutNegativeZero ((-b + r) / (2.0 * a)) :=
    ((Number.blind_without_negative_zero.div (2.0 * a)).add r).neg
  have hminus (r : Float) : Blind fun b => withoutNegativeZero ((-b - r) / (2.0 * a)) :=
    ((Number.blind_without_negative_zero.div (2.0 * a)).sub r).neg
  unfold Blind at *
  simp only [quadratic, hd, hvertex, hunsigned, hplus, hminus]

theorem quadratic_blind_c : Blind fun c => quadratic a b c := by
  have hd := discriminant_blind_c a b
  unfold Blind at *
  simp only [quadratic, hd]

theorem linear_blind_c : Blind fun c => linear b c := by
  have hroot : Blind fun c => withoutNegativeZero (-c / b) :=
    (Number.blind_without_negative_zero.div b).neg
  unfold Blind at *
  simp only [linear, hroot]

theorem constant_blind : Blind constant := by
  have h := Number.blind_is_negligible
  unfold Blind at *
  rw [constant, constant, h]

theorem of_coefficients_blind_a : Blind fun a => ofCoefficients a b c := by
  have hpos : Number.isNegligible 0.0 = true := by decide
  have hneg : Number.isNegligible (-0.0) = true := by decide
  unfold Blind
  simp only [ofCoefficients, hpos, hneg, Bool.not_true, Bool.false_eq_true, if_false]

theorem of_coefficients_blind_b : Blind fun b => ofCoefficients a b c := by
  have hquadratic := quadratic_blind_b a c
  have hneg := Number.blind_is_negligible
  have hzero : Number.isNegligible (-0.0) = true := by decide
  unfold Blind at *
  simp only [ofCoefficients, hquadratic, hneg, hzero, Bool.not_true, Bool.false_eq_true, if_false]

theorem of_coefficients_blind_c : Blind fun c => ofCoefficients a b c := by
  have hquadratic := quadratic_blind_c a b
  have hlinear := linear_blind_c b
  have hconstant := constant_blind
  unfold Blind at *
  simp only [ofCoefficients, hquadratic, hlinear, hconstant]

end Solution

/-! ## The shown texts -/

namespace Table

theorem result_solve (t : Table) :
    t.solve.result = (Solution.ofCoefficients t.a t.b t.c).map Solution.sorted := by
  simp only [solve, Traced.result_bind, Traced.result_ofResult, Traced.result_note, ok_bind]
  cases Solution.ofCoefficients t.a t.b t.c with
  | error e => simp only [error_bind, map_error]
  | ok s => simp only [ok_bind, map_ok, Traced.pure_def]

/-- A zero of either sign is left out of the reduced form. -/
theorem shown_blind (degree : ℕ) (rest : List (ℕ × Float)) :
    Blind fun v => if !Number.isNegligible v then (degree, v) :: rest else rest := by
  have hpos : Number.isNegligible 0.0 = true := by decide
  have hneg : Number.isNegligible (-0.0) = true := by decide
  unfold Blind
  simp only [hpos, hneg, Bool.not_true, Bool.false_eq_true, if_false]

/-- The three coefficients are the same up to the signs of zeros. -/
structure Alike (t u : Table) : Prop where
  a : withoutNegativeZero t.a = withoutNegativeZero u.a
  b : withoutNegativeZero t.b = withoutNegativeZero u.b
  c : withoutNegativeZero t.c = withoutNegativeZero u.c

section Alike
variable {t u : Table}

theorem Alike.solve (h : Alike t u) : t.solve.result = u.solve.result := by
  have ha := (Solution.of_coefficients_blind_a t.b t.c).congr h.a
  have hb := (Solution.of_coefficients_blind_b u.a t.c).congr h.b
  have hc := (Solution.of_coefficients_blind_c u.a u.b).congr h.c
  rw [result_solve, result_solve, ha, hb, hc]

theorem Alike.degree (h : Alike t u) : t.degree = u.degree := by
  rw [Table.degree, Table.degree, Number.blind_is_negligible.congr h.a,
    Number.blind_is_negligible.congr h.b]

theorem Alike.reduced_form (h : Alike t u) : t.reducedForm = u.reducedForm := by
  have hshown : t.shownTerms = u.shownTerms := by
    simp only [shownTerms, List.filter_cons, List.filter_nil]
    rw [(shown_blind 0 []).congr h.c, (shown_blind 1 _).congr h.b, (shown_blind 2 _).congr h.a]
  rw [reducedForm, reducedForm, hshown]

end Alike

/-- The table as its canonical form is read again. -/
def reread (t : Table) : Table :=
  ofCoefficients t.a (withoutNegativeZero t.b) (withoutNegativeZero t.c)

theorem alike_reread (t : Table) : Alike t.reread t where
  a := by rw [reread, a_of_coefficients]
  b := by rw [reread, b_of_coefficients, Number.blind_without_negative_zero.apply]
  c := by rw [reread, c_of_coefficients, Number.blind_without_negative_zero.apply]

theorem solve_reread (t : Table) : t.reread.solve.result = t.solve.result := t.alike_reread.solve

theorem degree_reread (t : Table) : t.reread.degree = t.degree := t.alike_reread.degree

theorem reduced_form_reread (t : Table) : t.reread.reducedForm = t.reducedForm :=
  t.alike_reread.reduced_form

end Table

/-! ## Solving again -/

namespace Equation
variable {s : String} {t : Table} {solution : Solution} {w : Working}

theorem table_eq_ok : (table s).result = .ok t ↔
    ∃ ts raw, Token.scanText s = .ok ts ∧ (rawTable ts).result = .ok raw ∧ raw.validate = .ok t := by
  simp [table, bind_eq_ok]

theorem solve_eq_ok : (solve s).result = .ok (solution, w) ↔
    ∃ ts raw t, Token.scanText s = .ok ts ∧ (rawTable ts).result = .ok raw ∧ raw.validate = .ok t ∧
      t.solve.result = .ok solution ∧ working ts raw t solution = w := by
  simp [solve, bind_eq_ok]

/-- The canonical form of a solved equation has the same solution, bit for bit, and the same working
apart from the tokens and the table before validation. -/
theorem solve_canonical_form (ht : (table s).result = .ok t) (ha : t.a.isFinite = true)
    (hb : t.b.isFinite = true) (hc : t.c.isFinite = true)
    (h : (solve s).result = .ok (solution, w)) :
    ∃ tokens raw, (solve w.canonical).result =
      .ok (solution, { w with tokens := tokens, rawTable := raw }) := by
  obtain ⟨ts, raw, u, hscan, hraw, hvalid, hsolution, rfl⟩ := solve_eq_ok.mp h
  obtain ⟨ts', raw', hscan', hraw', hvalid'⟩ := table_eq_ok.mp ht
  have htu : t = u := by
    rw [hscan] at hscan'
    cases hscan'
    rw [hraw] at hraw'
    cases hraw'
    rw [hvalid] at hvalid'
    cases hvalid'
    rfl
  subst htu
  obtain ⟨ts₁, raw₁, hscan₁, hraw₁, hvalid₁⟩ := table_eq_ok.mp (Table.table_canonical_form ha hb hc)
  refine ⟨Token.listText ts₁, raw₁.text, ?_⟩
  rw [solve_eq_ok]
  refine ⟨ts₁, raw₁, t.reread, hscan₁, hraw₁, hvalid₁, t.solve_reread.trans hsolution, ?_⟩
  have hcanonical : t.reread.canonicalForm = t.canonicalForm := t.canonical_form_blind
  simp only [working, hcanonical, t.reduced_form_reread, t.degree_reread]

/-- A text with the coefficient `-0.0`. -/
def sampleText : String := "1*X^2 - 0*X^1 - 4 = 0"

theorem sample_table : (table sampleText).result = .ok (.ofCoefficients 1.0 (-0.0) (-4.0)) := by
  have hs : Token.visible sampleText = Token.letters (Table.canonicalTree none
      (.digit '1' rfl) .minus (.digit '0' rfl) .minus (.digit '4' rfl)).tokens := by
    decide +kernel
  have hvalues : Table.numeralValue none (.digit '1' rfl) = 1.0 ∧
      Grammar.Sign.minus.apply (Number.ofSpelling (Numeral.digit '0' rfl).chars) = -0.0 ∧
      Grammar.Sign.minus.apply (Number.ofSpelling (Numeral.digit '4' rfl).chars) = -4.0 := by
    decide +kernel
  rw [Table.table_of_visible hs, hvalues.1, hvalues.2.1, hvalues.2.2]

def sampleSolution : Solution := ⟨.twoReals, some 16.0, [.real (-2.0), .real 2.0]⟩

theorem sample_solution :
    (Table.ofCoefficients 1.0 (-0.0) (-4.0)).solve.result = .ok sampleSolution := by
  have hroots : (Solution.ofCoefficients 1.0 (-0.0) (-4.0)).toOption =
      some ⟨.twoReals, some 16.0, [.real 2.0, .real (-2.0)]⟩ := by
    decide +kernel
  have horder : (Root.order (.real 2.0) (.real (-2.0))).isLE = false := by decide
  have hsort : Root.sort [.real 2.0, .real (-2.0)] = [.real (-2.0), .real 2.0] := by
    simp [Root.sort, List.mergeSort, List.MergeSort.Internal.splitInTwo, horder]
  cases h : Solution.ofCoefficients 1.0 (-0.0) (-4.0) with
  | error e =>
    rw [h] at hroots
    cases hroots
  | ok found =>
    rw [h] at hroots
    cases hroots
    simp [Table.solve, Table.a_of_coefficients, Table.b_of_coefficients, Table.c_of_coefficients, h,
      Solution.sorted, hsort, sampleSolution]

theorem solve_canonical_form_sample :
    ∃ w, (solve sampleText).result = .ok (sampleSolution, w) ∧
      w.canonical = "1 * X^2 + 0 * X^1 - 4 = 0" ∧
      ∃ tokens raw, (solve w.canonical).result =
        .ok (sampleSolution, { w with tokens := tokens, rawTable := raw }) := by
  obtain ⟨ts, raw, hscan, hraw, hvalid⟩ := table_eq_ok.mp sample_table
  have hsolve := solve_eq_ok.mpr ⟨ts, raw, _, hscan, hraw, hvalid, sample_solution, rfl⟩
  have hcanonical : (Table.ofCoefficients 1.0 (-0.0) (-4.0)).canonicalForm =
      "1 * X^2 + 0 * X^1 - 4 = 0" := by
    decide +kernel
  exact ⟨_, hsolve, hcanonical,
    solve_canonical_form sample_table (by decide) (by decide) (by decide) hsolve⟩

end Equation
end Trinomial
