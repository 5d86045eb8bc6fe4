import Trinomial.Proofs.Grammar.Equations
import Trinomial.Proofs.Token.Printing

/-! # The canonical form, read again

The canonical form of a table with finite coefficients derives from the grammar, and its value is the
table itself up to the sign of a zero.
-/
set_option autoImplicit false

namespace Trinomial.Table
open Grammar

/-! ## The tree -/

/-- A numeral as an atom, possibly after a sign. -/
def numeralAtom (s : Option Sign) (n : Numeral) : AtomTree :=
  .number s (Number.ofSpelling n.chars) (String.ofList n.chars)

def numeralTerm (n : Numeral) : TermTree := ⟨⟨.atom (numeralAtom none n), []⟩, []⟩

/-- A numeral times a power of the unknown. -/
def powerTerm (s : Option Sign) (n exponent : Numeral) : TermTree :=
  ⟨⟨.atom (numeralAtom s n), []⟩, [⟨.power .unknown (.atom (numeralAtom none exponent)), []⟩]⟩

/-- The tree of `± p * X^2 ± q * X^1 ± r = 0`. -/
def canonicalTree (first : Option Sign) (p : Numeral) (second : Sign) (q : Numeral) (third : Sign)
    (r : Numeral) : EquationTree where
  left := ⟨powerTerm first p (.digit '2' rfl),
    [(second, powerTerm none q (.digit '1' rfl)), (third, numeralTerm r)]⟩
  right := ⟨numeralTerm (.digit '0' rfl), []⟩

/-! ## The values of its terms -/

/-- The number of an atom: the value of its spelling, after a sign if there is one. -/
def numeralValue (s : Option Sign) (n : Numeral) : Float :=
  (s.map Sign.apply).getD id (Number.ofSpelling n.chars)

/-- One number above the bar and nothing below it. -/
theorem reduce_literal {os : List Operand} {v e : Float} (hp : Operand.product os = 1.0 * v)
    (hd : Degree.ofExponent (Operand.degree os - 0.0) = .number e) :
    Fraction.reduce ⟨os, []⟩ = .ok ⟨v, .number e⟩ := by
  have hone : Number.isNegligible 1.0 = false := by decide
  have hempty : Operand.product [] = 1.0 := rfl
  have hzero : Operand.degree [] = 0.0 := rfl
  simp only [Fraction.reduce, hempty, hzero, hone, hp, hd, Number.float_one_mul,
    Number.float_div_one, Bool.false_eq_true, if_false]

theorem numeral_term_value (n : Numeral) :
    (numeralTerm n).value = .ok ⟨Number.ofSpelling n.chars, .number 0.0⟩ := by
  have hf : ((numeralTerm n).first :: (numeralTerm n).others).mapM FactorTree.fraction =
      .ok [⟨[.literal (numeralValue none n)], []⟩] := rfl
  have hd : Degree.ofExponent (Operand.degree [.literal (numeralValue none n)] - 0.0) =
      .number 0.0 := by
    have hempty : Operand.degree [.literal (numeralValue none n)] = 0.0 := rfl
    rw [hempty]
    decide
  rw [term_value_eq_reduce, hf]
  exact reduce_literal rfl hd

theorem power_term_value (s : Option Sign) (n exponent : Numeral)
    (he : Degree.ofExponent (0.0 + Number.ofSpelling exponent.chars - 0.0) =
      .number (Number.ofSpelling exponent.chars)) :
    (powerTerm s n exponent).value =
      .ok ⟨numeralValue s n, .number (Number.ofSpelling exponent.chars)⟩ := by
  have hf : ((powerTerm s n exponent).first :: (powerTerm s n exponent).others).mapM
      FactorTree.fraction = .ok [⟨[.literal (numeralValue s n)], []⟩,
        ⟨[.unknownPower (Number.ofSpelling exponent.chars)], []⟩] := by
    cases s <;> rfl
  rw [term_value_eq_reduce, hf]
  exact reduce_literal rfl he

/-! ## The table of three coefficients -/

def ofCoefficients (a b c : Float) : Table :=
  ⟨[⟨c, .number 0.0⟩, ⟨b, .number 1.0⟩, ⟨a, .number 2.0⟩]⟩

theorem supported_degrees : (Degree.number 0.0).isSupported = true ∧
    (Degree.number 1.0).isSupported = true ∧ (Degree.number 2.0).isSupported = true := by
  decide

theorem same_degrees : (Degree.number 0.0).same (.number 0.0) = true ∧
    (Degree.number 0.0).same (.number 1.0) = false ∧ (Degree.number 0.0).same (.number 2.0) = false ∧
    (Degree.number 1.0).same (.number 0.0) = false ∧ (Degree.number 1.0).same (.number 1.0) = true ∧
    (Degree.number 1.0).same (.number 2.0) = false ∧ (Degree.number 2.0).same (.number 0.0) = false ∧
    (Degree.number 2.0).same (.number 1.0) = false ∧ (Degree.number 2.0).same (.number 2.0) = true := by
  decide

section Coefficients
variable (a b c : Float)

theorem degrees_of_coefficients :
    (ofCoefficients a b c).terms.map Term.degree = [.number 0.0, .number 1.0, .number 2.0] := rfl

theorem a_of_coefficients : (ofCoefficients a b c).a = a := by
  simp [Table.a, coefficient, ofCoefficients, same_degrees]

theorem b_of_coefficients : (ofCoefficients a b c).b = b := by
  simp [Table.b, coefficient, ofCoefficients, same_degrees]

theorem c_of_coefficients : (ofCoefficients a b c).c = c := by
  simp [Table.c, coefficient, ofCoefficients, same_degrees]

theorem validate_of_coefficients : (ofCoefficients a b c).validate = .ok (ofCoefficients a b c) := by
  have hs : (ofCoefficients a b c).significant = (ofCoefficients a b c).terms := by
    simp [significant, ofCoefficients, supported_degrees]
  rw [validate, hs]
  simp [ofCoefficients, supported_degrees]

/-- The four terms of a canonical form: the right side goes into the constant. -/
theorem add_canonical (d : Float) :
    (((({} : Table).add ⟨a, .number 2.0⟩).add ⟨b, .number 1.0⟩).add ⟨c, .number 0.0⟩).add
      ⟨d, .number 0.0⟩ = ofCoefficients a b (c + d) := by
  have hbefore : (Degree.number 2.0).before (.number 1.0) = false ∧
      (Degree.number 1.0).before (.number 0.0) = false := by decide
  simp [add, place, increase, ofCoefficients, same_degrees, hbefore]

end Coefficients

/-! ## The value of the tree -/

theorem sign_apply_one (s : Sign) (v : Float) : v * s.apply 1.0 = s.apply v := by
  cases s with
  | plus => exact Number.float_mul_one v
  | minus => exact Number.float_mul_neg_one v

theorem canonical_tree_value (first : Option Sign) (p : Numeral) (second : Sign) (q : Numeral)
    (third : Sign) (r : Numeral) :
    (canonicalTree first p second q third r).value =
      .ok (ofCoefficients (numeralValue first p) (second.apply (Number.ofSpelling q.chars))
        (third.apply (Number.ofSpelling r.chars))) := by
  have htwo : (powerTerm first p (.digit '2' rfl)).value = .ok ⟨numeralValue first p, .number 2.0⟩ :=
    power_term_value first p (.digit '2' rfl) (by decide)
  have hone : (powerTerm none q (.digit '1' rfl)).value =
      .ok ⟨Number.ofSpelling q.chars, .number 1.0⟩ :=
    power_term_value none q (.digit '1' rfl) (by decide)
  have hzero : (numeralTerm (.digit '0' rfl)).value = .ok ⟨0.0, .number 0.0⟩ :=
    numeral_term_value (.digit '0' rfl)
  have hright : (0.0 : Float) * -1.0 = -0.0 := by decide
  change List.foldlM addSigned {} [(1.0, powerTerm first p (.digit '2' rfl)),
    (second.apply 1.0, powerTerm none q (.digit '1' rfl)), (third.apply 1.0, numeralTerm r),
    (-1.0, numeralTerm (.digit '0' rfl))] = _
  simp only [List.foldlM_cons, List.foldlM_nil, addSigned, htwo, hone, hzero, numeral_term_value,
    map_ok, ok_bind, Term.scale, sign_apply_one, Number.float_mul_one, hright, add_canonical,
    Number.float_add_neg_zero]
  rfl

/-! ## Its text -/

section Text
variable (first : Option Sign) (p : Numeral) (second : Sign) (q : Numeral) (third : Sign) (r : Numeral)

theorem canonical_tokens :
    (canonicalTree first p second q third r).tokens =
      first.toList.map Sign.token ++
        [.ofSpelling p.chars, .times, .unknown, .caret, .ofSpelling ['2'], second.token,
          .ofSpelling q.chars, .times, .unknown, .caret, .ofSpelling ['1'], third.token,
          .ofSpelling r.chars, .equals, .ofSpelling ['0']] := by
  cases first <;> rfl

theorem sign_well_spelled (s : Sign) : s.token.WellSpelled := by
  cases s <;> trivial

theorem canonical_printable : Token.Printable (canonicalTree first p second q third r).tokens := by
  rw [canonical_tokens]
  constructor
  · have hdigit (c : Char) (h : c.isDigit = true) : (Token.ofSpelling [c]).WellSpelled :=
      Token.well_spelled_numeral (.digit c h)
    simp only [List.forall_mem_append, List.forall_mem_map, List.forall_mem_cons]
    exact ⟨fun s _ => sign_well_spelled s, Token.well_spelled_numeral p, trivial, trivial, trivial,
      hdigit '2' rfl, sign_well_spelled second, Token.well_spelled_numeral q, trivial, trivial, trivial,
      hdigit '1' rfl, sign_well_spelled third, Token.well_spelled_numeral r, trivial, hdigit '0' rfl, nofun⟩
  · have hsign (s : Sign) : s.token.isNumber = false := by cases s <;> rfl
    have hnumber (cs : List Char) : (Token.ofSpelling cs).isNumber = true := rfl
    have hsymbol : Token.times.isNumber = false ∧ Token.unknown.isNumber = false ∧
        Token.caret.isNumber = false ∧ Token.equals.isNumber = false := ⟨rfl, rfl, rfl, rfl⟩
    cases first <;> simp [hsign, hnumber, hsymbol]

theorem canonical_letters :
    Token.letters (canonicalTree first p second q third r).tokens =
      (first.toList.flatMap fun s => s.token.text.toList) ++ p.chars ++ ['*', 'X', '^', '2'] ++
        second.token.text.toList ++ q.chars ++ ['*', 'X', '^', '1'] ++
        third.token.text.toList ++ r.chars ++ ['=', '0'] := by
  have hsymbol : Token.times.text.toList = ['*'] ∧ Token.unknown.text.toList = ['X'] ∧
      Token.caret.text.toList = ['^'] ∧ Token.equals.text.toList = ['='] := ⟨rfl, rfl, rfl, rfl⟩
  rw [canonical_tokens, Token.letters]
  simp [Token.text_of_spelling, hsymbol, List.flatMap_append, List.flatMap_map]

theorem canonical_towers :
    (∀ u ∈ (canonicalTree first p second q third r).left.towers, u.atoms.length ≤ towerLimit) ∧
      ∀ u ∈ (canonicalTree first p second q third r).right.towers, u.atoms.length ≤ towerLimit := by
  have hatom (a : AtomTree) : (TowerTree.atom a).atoms.length ≤ towerLimit := by
    change 1 ≤ towerLimit
    decide
  have hpower (a b : AtomTree) : (TowerTree.power a (.atom b)).atoms.length ≤ towerLimit := by
    change 2 ≤ towerLimit
    decide
  constructor
  · change ∀ u ∈ [TowerTree.atom _, .power _ (.atom _), .atom _, .power _ (.atom _), .atom _], _
    simp only [List.forall_mem_cons]
    exact ⟨hatom _, hpower _ _, hatom _, hpower _ _, hatom _, nofun⟩
  · change ∀ u ∈ [TowerTree.atom _], _
    rw [List.forall_mem_singleton]
    exact hatom _

end Text

/-- Any text of that shape is read as the table of its three numbers. -/
theorem table_of_visible {s : String} {first : Option Sign} {p : Numeral} {second : Sign}
    {q : Numeral} {third : Sign} {r : Numeral}
    (hs : Token.visible s = Token.letters (canonicalTree first p second q third r).tokens) :
    (Equation.table s).result =
      .ok (ofCoefficients (numeralValue first p) (second.apply (Number.ofSpelling q.chars))
        (third.apply (Number.ofSpelling r.chars))) := by
  obtain ⟨hleft, hright⟩ := canonical_towers first p second q third r
  have hscan := Token.scan_text_letters (canonical_printable first p second q third r) hs
  rw [Equation.table, hscan, Traced.result_bind, Traced.result_ofResult, ok_bind,
    Traced.result_bind, read_equation_tokens hleft hright, canonical_tree_value, ok_bind,
    Traced.result_ofResult, validate_of_coefficients]

/-! ## The canonical form of a table -/

open Solution (withoutNegativeZero)

/-- The sign that is written before a number after the first one. -/
def shownSign (v : Float) : Sign := if v < 0.0 then .minus else .plus

/-- The sign that is written straight before a number. -/
def ownSign (v : Float) : Option Sign := if Number.isNegative v then some .minus else none

section Signs
variable {v : Float} (hv : v.isFinite = true)
include hv

theorem visible_plain_text :
    ∃ n : Numeral, Token.visible (Number.plainText v) =
        ((ownSign v).toList.flatMap fun s => s.token.text.toList) ++ n.chars ∧
      Number.ofSpelling n.chars = v.abs := by
  obtain ⟨n, hchars, hvalue⟩ := Number.plain_numeral hv
  refine ⟨n, ?_, hvalue⟩
  have hblank : ∀ c ∈ Number.chars .plain v, Text.isBlank c = false := by
    rw [hchars]
    intro c hc
    rcases List.mem_append.mp hc with h | h
    · split at h
      · rw [List.mem_singleton.mp h]
        rfl
      · cases h
    · exact Token.digit_not_blank (n.chars_allowed h)
  rw [Number.plainText, Token.visible_of_list hblank, hchars, ownSign]
  split <;> rfl

theorem visible_signed :
    ∃ n : Numeral, Token.visible (signed v) = (shownSign v).token.text.toList ++ n.chars ∧
      Number.ofSpelling n.chars = v.abs := by
  obtain ⟨hfinite, hsign, -⟩ := Number.abs_finite hv
  obtain ⟨n, hchars, hvalue⟩ := visible_plain_text hfinite
  have hown : ownSign v.abs = none := by
    rw [ownSign, hsign]
    rfl
  rw [hown] at hchars
  rw [Number.abs_of_nonnegative hfinite hsign] at hvalue
  refine ⟨n, ?_, hvalue⟩
  rw [signed, shownSign]
  split_ifs with h
  · have hneg := ((Number.lt_zero_iff hv).mp h).1
    rw [← Number.abs_of_negative hv hneg, Token.visible_append, hchars]
    rfl
  · rw [Token.visible_append, hchars]
    rfl

theorem own_sign_value {n : Numeral} (hn : Number.ofSpelling n.chars = v.abs) :
    numeralValue (ownSign v) n = v := by
  rw [numeralValue, hn, ownSign]
  cases h : Number.isNegative v with
  | true =>
    change -v.abs = v
    rw [Number.abs_of_negative hv h, Number.float_neg_neg]
  | false => exact Number.abs_of_nonnegative hv h

/-- The written sign and size make up the number, and `0.0` for `-0.0`. -/
theorem shown_sign_value : (shownSign v).apply v.abs = withoutNegativeZero v := by
  rw [shownSign]
  split_ifs with h
  · obtain ⟨hneg, hzero⟩ := (Number.lt_zero_iff hv).mp h
    rw [Number.abs_of_negative hv hneg, Number.without_negative_zero_eq hzero]
    exact Number.float_neg_neg v
  · by_cases hzero : v = -0.0
    · rw [hzero]
      decide
    · have hneg : Number.isNegative v = false := by
        rw [← Bool.not_eq_true]
        exact fun hneg => h ((Number.lt_zero_iff hv).mpr ⟨hneg, hzero⟩)
      rw [Number.without_negative_zero_eq hzero]
      exact Number.abs_of_nonnegative hv hneg

end Signs

section Table
variable {t : Table} (ha : t.a.isFinite = true) (hb : t.b.isFinite = true) (hc : t.c.isFinite = true)
include ha hb hc

/-- What the canonical form is read as: the three coefficients, the last two without negative
zeros. -/
theorem table_canonical_form :
    (Equation.table t.canonicalForm).result =
      .ok (ofCoefficients t.a (withoutNegativeZero t.b) (withoutNegativeZero t.c)) := by
  obtain ⟨p, hp, hpv⟩ := visible_plain_text ha
  obtain ⟨q, hq, hqv⟩ := visible_signed hb
  obtain ⟨r, hr, hrv⟩ := visible_signed hc
  have hletters : Token.visible t.canonicalForm =
      Token.letters (canonicalTree (ownSign t.a) p (shownSign t.b) q (shownSign t.c) r).tokens := by
    have h2 : Token.visible " * X^2 " = ['*', 'X', '^', '2'] := by decide
    have h1 : Token.visible " * X^1 " = ['*', 'X', '^', '1'] := by decide
    have h0 : Token.visible " = 0" = ['=', '0'] := by decide
    rw [canonicalForm, canonical_letters]
    simp only [Token.visible_append, hp, hq, hr, h2, h1, h0, List.append_assoc]
  rw [table_of_visible hletters, own_sign_value ha hpv, hqv, hrv, shown_sign_value hb,
    shown_sign_value hc]

end Table

/-! ## The table that is read -/

theorem blind_signed : Number.Blind signed := by
  change signed 0.0 = signed (-0.0)
  decide

/-- The canonical form does not show the sign of a zero, except in the first coefficient. -/
theorem canonical_form_blind (t : Table) :
    (ofCoefficients t.a (withoutNegativeZero t.b) (withoutNegativeZero t.c)).canonicalForm =
      t.canonicalForm := by
  rw [canonicalForm, a_of_coefficients, b_of_coefficients, c_of_coefficients, blind_signed.apply,
    blind_signed.apply]
  rfl

theorem beq_without_negative_zero {v : Float} (hv : v.isFinite = true) :
    (withoutNegativeZero v == v) = true := by
  by_cases h : v = -0.0
  · rw [h]
    decide
  · rw [Number.without_negative_zero_eq h]
    exact Number.beq_self hv

/-- The canonical form of finite coefficients is read again: three terms, equal as numbers, and with
the same canonical form. -/
theorem canonical_form_read {t : Table} (ha : t.a.isFinite = true) (hb : t.b.isFinite = true)
    (hc : t.c.isFinite = true) :
    ∃ t', (Equation.table t.canonicalForm).result = .ok t' ∧
      t'.terms.map Term.degree = [.number 0.0, .number 1.0, .number 2.0] ∧
      (t'.a == t.a) = true ∧ (t'.b == t.b) = true ∧ (t'.c == t.c) = true ∧
      t'.canonicalForm = t.canonicalForm := by
  refine ⟨_, table_canonical_form ha hb hc, degrees_of_coefficients _ _ _, ?_, ?_, ?_,
    canonical_form_blind t⟩
  · rw [a_of_coefficients]
    exact Number.beq_self ha
  · rw [b_of_coefficients]
    exact beq_without_negative_zero hb
  · rw [c_of_coefficients]
    exact beq_without_negative_zero hc

theorem canonical_form_read_sample :
    (ofCoefficients 2.5 (-0.0) (-3.0)).canonicalForm = "2.5 * X^2 + 0 * X^1 - 3 = 0" ∧
      ∃ t', (Equation.table (ofCoefficients 2.5 (-0.0) (-3.0)).canonicalForm).result = .ok t' ∧
        t'.terms.map Term.degree = [.number 0.0, .number 1.0, .number 2.0] ∧
        (t'.a == (ofCoefficients 2.5 (-0.0) (-3.0)).a) = true ∧
        (t'.b == (ofCoefficients 2.5 (-0.0) (-3.0)).b) = true ∧
        (t'.c == (ofCoefficients 2.5 (-0.0) (-3.0)).c) = true ∧
        t'.canonicalForm = (ofCoefficients 2.5 (-0.0) (-3.0)).canonicalForm :=
  ⟨by decide +kernel, canonical_form_read (by decide) (by decide) (by decide)⟩

end Trinomial.Table
