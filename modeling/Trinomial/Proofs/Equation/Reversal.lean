import Trinomial.Proofs.Grammar.Equations
import Trinomial.Proofs.Table.Turning
import Trinomial.Proofs.Token.Sides

/-! # Turning an equation with a zero side

`M = 0` reads the terms of `M` as they are and adds a zero at the end; `0 = M` starts with a zero and
reads the same terms with opposite signs. Both come to opposite tables, so to one answer, and what
makes the one fail makes the other fail.
-/
set_option autoImplicit false

namespace Trinomial

open Number (Blind)
open Solution (withoutNegativeZero)

/-! ## Sides of opposite sign -/

theorem Term.scale_neg (t : Term) (s : Float) : t.scale (-s) = (t.scale s).negate :=
  congrArg (Term.mk · t.degree) (Number.float_mul_neg t.coefficient s)

namespace SideReading

/-- Reading with opposite signs gives opposite terms, and stops alike. -/
structure Opposite (r s : SideReading) : Prop where
  terms : s.terms = r.terms.map Term.negate
  failure : s.failure? = r.failure?

theorem Opposite.cons {r s : SideReading} (h : Opposite r s) (t : Term) (log : List Record) :
    Opposite (.cons t log r) (.cons t.negate log s) :=
  ⟨congrArg (t.negate :: ·) h.terms, h.failure⟩

theorem read_terms_opposite (side sign : Float) (ts : List Token) :
    Opposite (readTerms side sign ts) (readTerms (-side) (-sign) ts) := by
  fun_induction readTerms side sign ts with
  | case1 sign ts log e h =>
    rw [read_terms_error h]
    exact ⟨rfl, rfl⟩
  | case2 sign ts log t h =>
    rw [read_terms_last h, Term.scale_neg]
    exact Opposite.cons ⟨rfl, rfl⟩ _ log
  | case3 sign ts log t rest h _ ih =>
    rw [read_terms_plus h, Term.scale_neg]
    exact ih.cons _ log
  | case4 sign ts log t rest h _ ih =>
    rw [read_terms_minus h, Term.scale_neg]
    exact ih.cons _ log
  | case5 sign ts log t found rest h hp hm =>
    rw [read_terms_other h hp hm, Term.scale_neg]
    exact Opposite.cons ⟨rfl, rfl⟩ _ log

theorem read_opposite (sign : Float) (ts : List Token) :
    Opposite (read sign ts) (read (-sign) ts) := by
  rw [read, read]
  split_ifs
  · exact ⟨rfl, rfl⟩
  · have h := read_terms_opposite sign sign ts
    exact ⟨h.terms, h.failure⟩

theorem read_zero (sign : Float) : (read sign [Token.zero]).failure? = none ∧
    (read sign [Token.zero]).terms = [⟨0.0 * sign, .number 0.0⟩] := by
  have hzero : Token.zero = .number 0.0 "0" := by decide
  have hoperand : Operand.read [.number 0.0 "0"] = ⟨[], .ok (.literal 0.0, [])⟩ := by rfl
  have hothers : Term.readOperands [] = ⟨[], .ok (⟨[], []⟩, [])⟩ := Term.read_operands_stop nofun nofun
  have hreduce : (Fraction.consAbove (.literal 0.0) ⟨[], []⟩).reduce =
      .ok ⟨0.0, .number 0.0⟩ := by rfl
  have hterm : (Term.read [.number 0.0 "0"]).result = .ok (⟨0.0, .number 0.0⟩, []) := by
    simp only [Term.read, hoperand, Traced.bind_ok, hothers, hreduce, Traced.ofResult,
      Traced.pure_def]
  rw [hzero, read, if_neg (by decide)]
  dsimp only
  rw [read_terms_last (Traced.eq_mk_of_result hterm)]
  exact ⟨rfl, rfl⟩

/-- The table after a side is that of its terms, unless the side has stopped. -/
theorem result_add_to (r : SideReading) (table : Table) : (r.addTo table).result =
    (match r.failure? with
      | some e => .error e
      | none => .ok (table.addAll r.terms)) := rfl

end SideReading

/-! ## The two tables -/

namespace Equation
variable (ts : List Token)

/-- The terms of a left side, added up. -/
def sideTable (m : String) : Except Failure Table := do
  let ts ← Token.scanText m
  ((SideReading.read 1.0 ts).addTo {}).result

theorem raw_table_before (h : .equals ∉ ts) : (rawTable (ts ++ [.equals, Token.zero])).result =
    (((SideReading.read 1.0 ts).addTo {}).result).map fun table => table.add Table.negativeZero := by
  have hsplit : Token.splitSides (ts ++ [.equals, Token.zero]) = .ok (ts, [Token.zero]) :=
    Grammar.split_sides_append h (by decide)
  obtain ⟨hfailure, hterms⟩ := SideReading.read_zero (-1.0)
  have hzero : (0.0 * -1.0 : Float) = -0.0 := by decide
  simp only [rawTable, hsplit, Traced.result_bind, Traced.result_ofResult, ok_bind]
  cases ((SideReading.read 1.0 ts).addTo {}).result with
  | error e => rfl
  | ok table =>
    rw [ok_bind, SideReading.result_add_to, hfailure, hterms, hzero]
    rfl

theorem raw_table_after (h : .equals ∉ ts) : (rawTable ([Token.zero, .equals] ++ ts)).result =
    ((SideReading.read (-1.0) ts).addTo (Table.add {} ⟨0.0, .number 0.0⟩)).result := by
  have hzeros : .equals ∉ [Token.zero] := by decide
  have hsplit : Token.splitSides ([Token.zero, .equals] ++ ts) = .ok ([Token.zero], ts) :=
    Grammar.split_sides_append hzeros h
  obtain ⟨hfailure, hterms⟩ := SideReading.read_zero 1.0
  have hzero : (0.0 * 1.0 : Float) = 0.0 := by decide
  simp only [rawTable, hsplit, Traced.result_bind, Traced.result_ofResult, ok_bind]
  rw [SideReading.result_add_to, hfailure, hterms, hzero]
  rfl

/-- Either no table comes of the terms, for one reason, or two opposite ones do. -/
theorem raw_tables_opposite (h : .equals ∉ ts) :
    (∃ e, (rawTable (ts ++ [.equals, Token.zero])).result = .error e ∧
        (rawTable ([Token.zero, .equals] ++ ts)).result = .error e) ∨
      ∃ side other, ((SideReading.read 1.0 ts).addTo {}).result = .ok side ∧
        (rawTable (ts ++ [.equals, Token.zero])).result = .ok (side.add Table.negativeZero) ∧
        (rawTable ([Token.zero, .equals] ++ ts)).result = .ok other ∧
        (side.add Table.negativeZero).settled = other.negate.settled := by
  have hopposite := SideReading.read_opposite 1.0 ts
  rw [raw_table_before ts h, raw_table_after ts h, SideReading.result_add_to,
    SideReading.result_add_to, hopposite.failure, hopposite.terms]
  cases (SideReading.read 1.0 ts).failure? with
  | some e => exact .inl ⟨e, rfl, rfl⟩
  | none => exact .inr ⟨_, _, rfl, rfl, rfl, Table.opposite_run _ (by decide)⟩

/-! ## The two answers -/

/-- Two answers to one equation in both directions, whose side adds up to a table: the same solution and
the same texts, or the same failure, at another position perhaps. The reduced forms can differ only
where a coefficient is not finite. -/
inductive SameAnswer (side : Except Failure Table) :
    Except Failure (Solution × Working) → Except Failure (Solution × Working) → Prop
  | solved {table : Table} {solution : Solution} {w w' : Working} (hside : side = .ok table)
      (hdegree : w'.degree = w.degree) (hdiscriminant : w'.discriminant = w.discriminant)
      (houtcome : w'.outcome = w.outcome) (hroots : w'.roots = w.roots)
      (hreduced : table.a.isFinite = true → table.b.isFinite = true → table.c.isFinite = true →
        w'.reduced = w.reduced) :
      SameAnswer side (.ok (solution, w)) (.ok (solution, w'))
  | refused {e e' : Failure} (h : e' = e ∨ e' = e.shift 2) : SameAnswer side (.error e) (.error e')

/-- The answer that comes of a table of all degrees. -/
def answer (ts : List Token) (raw : Table) : Except Failure (Solution × Working) := do
  let table ← raw.validate
  let solution ← table.solve.result
  return (solution, working ts raw table solution)

theorem result_solve (s : String) : (solve s).result =
    Token.scanText s >>= fun ts => (rawTable ts).result >>= fun raw => answer ts raw := by
  simp only [solve, Traced.result_bind, Traced.result_ofResult, Traced.result_note, ok_bind]
  rfl

/-- Opposite tables are validated alike, and stay opposite. -/
theorem validate_opposite {raw other : Table} (h : raw.settled = other.negate.settled) :
    (∃ e, raw.validate = .error e ∧ other.validate = .error e) ∨
      ∃ t u : Table, raw.validate = .ok t ∧ other.validate = .ok u ∧
        t.settled = u.negate.settled := by
  have hvalid : raw.validate.map Table.settled = (other.validate.map Table.negate).map Table.settled := by
    rw [← Table.validate_settled, h, Table.validate_settled, Table.validate_negate]
  cases hr : raw.validate with
  | error e =>
    rw [hr, map_error] at hvalid
    exact .inl ⟨e, rfl, map_eq_error.mp (map_eq_error.mp hvalid.symm)⟩
  | ok t =>
    rw [hr, map_ok] at hvalid
    obtain ⟨v, hv, hsettled⟩ := map_eq_ok.mp hvalid.symm
    obtain ⟨u, hu, rfl⟩ := map_eq_ok.mp hv
    exact .inr ⟨t, u, rfl, hu, hsettled.symm⟩

section Opposite
variable {side raw other t u : Table}

theorem alike_of_settled (h : t.settled = u.negate.settled) (d : Degree) :
    withoutNegativeZero (t.coefficient d) = withoutNegativeZero (u.negate.coefficient d) := by
  rw [← Table.coefficient_settled, h, Table.coefficient_settled]

/-- A coefficient of the opposite table is a number where that of the side is. -/
theorem is_nan_opposite (hvalid : (side.add Table.negativeZero).validate = .ok t)
    (h : t.settled = u.negate.settled) {d : Degree} (hd : d.isSupported = true)
    (hfinite : (side.coefficient d).isFinite = true) : (u.coefficient d).isNaN = false := by
  have hblind : Blind Float.isNaN := by rfl
  calc (u.coefficient d).isNaN
    _ = (-u.coefficient d).isNaN := Number.is_nan_neg.symm
    _ = (u.negate.coefficient d).isNaN := (u.blind_negate hblind d).symm
    _ = (t.coefficient d).isNaN := (hblind.congr (alike_of_settled h d)).symm
    _ = ((side.add Table.negativeZero).coefficient d).isNaN := by
      rw [Table.coefficient_validate hd hvalid]
    _ = (side.coefficient d).isNaN := hblind.congr (side.coefficient_add_negative_zero d)
    _ = false := Number.is_nan_of_finite hfinite

theorem answer_opposite {ts ts' : List Token}
    (h : (side.add Table.negativeZero).settled = other.negate.settled) :
    SameAnswer (.ok side) (answer ts (side.add Table.negativeZero)) (answer ts' other) := by
  rcases validate_opposite h with ⟨e, hraw, hother⟩ | ⟨t, u, hraw, hother, hopposite⟩
  · rw [answer, answer, hraw, hother]
    exact .refused (.inl rfl)
  · have halike : Table.Alike t u.negate :=
      ⟨alike_of_settled hopposite _, alike_of_settled hopposite _, alike_of_settled hopposite _⟩
    have hsolve : t.solve.result = u.solve.result := halike.solve.trans u.result_solve_negate
    rw [answer, answer, hraw, hother, ok_bind, ok_bind, ← hsolve]
    cases t.solve.result with
    | error e => exact .refused (.inl rfl)
    | ok solution =>
      refine .solved rfl ?_ rfl rfl rfl fun ha hb hc => ?_
      · exact congrArg toString (halike.degree.trans u.degree_negate).symm
      · have hform : u.negate.reducedForm = u.reducedForm := Table.reduced_form_negate
          (is_nan_opposite hraw hopposite (by decide) ha)
          (is_nan_opposite hraw hopposite (by decide) hb)
          (is_nan_opposite hraw hopposite (by decide) hc)
        exact hform.symm.trans halike.reduced_form.symm

end Opposite

/-- An equation with a zero side can be turned round: both directions have the same answer. -/
theorem solve_turned (m : String) (hm : '=' ∉ m.toList) :
    SameAnswer (sideTable m) (solve (m ++ "= 0")).result (solve ("0 =" ++ m)).result := by
  rw [result_solve, result_solve, Token.scan_text_before, Token.scan_text_after, sideTable]
  cases hscan : Token.scanText m with
  | error e => exact .refused (.inr rfl)
  | ok ts =>
    change SameAnswer ((SideReading.read 1.0 ts).addTo {}).result
      ((rawTable (ts ++ [.equals, Token.zero])).result >>= answer _)
      ((rawTable ([Token.zero, .equals] ++ ts)).result >>= answer _)
    rcases raw_tables_opposite ts (Token.equals_not_mem m hm hscan) with
      ⟨e, hraw, hother⟩ | ⟨side, other, hside, hraw, hother, h⟩
    · rw [hraw, hother]
      exact .refused (.inl rfl)
    · rw [hraw, hother, hside]
      exact answer_opposite h

theorem solve_turned_sample : SameAnswer (sideTable "X^2 - 4") (solve ("X^2 - 4" ++ "= 0")).result
    (solve ("0 =" ++ "X^2 - 4")).result :=
  solve_turned "X^2 - 4" (by decide)

end Equation
end Trinomial
