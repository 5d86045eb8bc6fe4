import Trinomial.Proofs.Equation.Reversal

/-! # The spelling of numbers

A number token carries its spelling beside its value. No stage after the scan looks at it: reading
commutes with forgetting all spellings, except that a fault of the text may quote a token. So two texts
that differ in spellings only have the same answer.
-/
set_option autoImplicit false

namespace Trinomial

/-! ## Tokens without spelling -/

namespace Token

/-- The token with its spelling forgotten. -/
def bare : Token → Token
  | number v _ => number v ""
  | t => t

/-- The same word: equal tokens, or two numbers of one value, however they are spelled. -/
inductive SameWord : Token → Token → Prop
  | symbol (t : Token) : SameWord t t
  | number (v : Float) (spelling spelling' : String) :
    SameWord (number v spelling) (number v spelling')

theorem map_bare_eq {ts us : List Token} (h : List.Forall₂ SameWord ts us) :
    ts.map bare = us.map bare := by
  induction h with
  | nil => rfl
  | cons hword _ ih =>
    rw [List.map_cons, List.map_cons, ih]
    cases hword <;> rfl

theorem bare_beq_equals (t : Token) : (t.bare == equals) = (t == equals) := by
  cases t <;> rfl

/-- Forgetting the spelling makes no symbol of a number. -/
theorem bare_eq_symbol {t sign : Token} (hsign : sign.isNumber = false) (h : t.bare = sign) :
    t = sign := by
  cases t with
  | number v spelling =>
    rw [← h] at hsign
    cases hsign
  | _ => exact h

theorem map_bare_ne {ts : List Token} {sign : Token} (hsign : sign.isNumber = false)
    (h : ∀ rest, ts ≠ sign :: rest) (rest : List Token) : ts.map bare ≠ sign :: rest := by
  intro hmap
  obtain ⟨t, ts', rfl, ht, -⟩ := List.map_eq_cons_iff.mp hmap
  rw [bare_eq_symbol hsign ht] at h
  exact h ts' rfl

end Token

/-! ## Failures without spelling -/

def Misspelling.bare : Misspelling → Misspelling
  | afterTerm found => afterTerm found.bare
  | signWithoutNumber sign found => signWithoutNumber sign (found.map Token.bare)
  | operandExpected found => operandExpected found.bare
  | cause => cause

/-- The failure with the spellings of the tokens that it quotes forgotten. -/
def Failure.bare : Failure → Failure
  | malformed cause => malformed cause.bare
  | e => e

theorem Failure.bare_of_numeric {e : Failure} (h : e.IsNumeric) : e.bare = e := by
  cases e with
  | malformed cause => cases h
  | _ => rfl

section Results
variable {α β : Type}

/-- A result with the spellings forgotten in the tokens after it. -/
def bareResult (x : Except Failure (α × List Token)) : Except Failure (α × List Token) :=
  (x.map fun p => (p.1, p.2.map Token.bare)).mapError Failure.bare

theorem bare_result_bind {x : Except Failure (α × List Token)}
    {f g : α × List Token → Except Failure (β × List Token)}
    (h : ∀ a rest, g (a, rest.map Token.bare) = bareResult (f (a, rest))) :
    bareResult x >>= g = bareResult (x >>= f) := by
  cases x with
  | error e => rfl
  | ok p => exact h p.1 p.2

/-- A computation that fails in no wording goes on as before. -/
theorem bare_result_computed {x : Except Failure α} (hx : ∀ e, x = .error e → e.bare = e)
    {f g : α → Except Failure (β × List Token)} (h : ∀ a, g a = bareResult (f a)) :
    x >>= g = bareResult (x >>= f) := by
  cases x with
  | error e =>
    rw [error_bind, error_bind]
    exact congrArg Except.error (hx e rfl).symm
  | ok a => exact h a

end Results

/-! ## Reading without spelling -/

theorem Atom.read_signed_bare (sign : Token) (f : Float → Float) (ts : List Token) :
    readSigned sign f (ts.map Token.bare) = bareResult (readSigned sign f ts) := by
  cases ts with
  | nil => rfl
  | cons t ts => cases t <;> rfl

theorem Atom.read_bare (ts : List Token) : read (ts.map Token.bare) = bareResult (read ts) := by
  cases ts with
  | nil => rfl
  | cons t ts =>
    cases t with
    | plus => exact read_signed_bare .plus id ts
    | minus => exact read_signed_bare .minus Neg.neg ts
    | _ => rfl

namespace Operand

theorem as_exponent_error {o : Operand} {e : Failure} (h : o.asExponent = .error e) : e.bare = e := by
  cases o with
  | literal v => cases h
  | unknownPower v =>
    cases h
    rfl

theorem raised_error {base : Atom} {exponent : Float} {e : Failure}
    (h : (base.raised exponent).result = .error e) : e.bare = e := by
  obtain ⟨v, -, hpower⟩ := Atom.raised_eq_error.mp h
  exact Failure.bare_of_numeric (power_error hpower)

theorem read_tower_bare (levels : ℕ) (ts : List Token) :
    (readTower levels (ts.map Token.bare)).result = bareResult (readTower levels ts).result := by
  induction levels generalizing ts with
  | zero => rfl
  | succ levels ih =>
    simp only [readTower, Traced.result_bind, Traced.result_ofResult, Atom.read_bare]
    refine bare_result_bind fun base rest => ?_
    cases rest with
    | nil => rfl
    | cons t rest =>
      cases t with
      | caret =>
        simp only [List.map_cons, Token.bare, Traced.result_bind, Traced.result_ofResult, ih]
        refine bare_result_bind fun top rest => ?_
        refine bare_result_computed (fun e => as_exponent_error) fun exponent => ?_
        exact bare_result_computed (fun e => raised_error) fun o => rfl
      | _ => rfl

theorem read_bare (ts : List Token) :
    (read (ts.map Token.bare)).result = bareResult (read ts).result :=
  read_tower_bare towerLimit ts

end Operand

namespace Term

/-- The operands after a sign are read alike, and so is the fraction they join. -/
theorem join_operands_bare {ts : List Token} (join : Operand → Fraction → Fraction) (o : Operand)
    (h : (readOperands (ts.map Token.bare)).result = bareResult (readOperands ts).result) :
    (readOperands (ts.map Token.bare)).result.map (fun q => (join o q.1, q.2)) =
      bareResult ((readOperands ts).result.map fun q => (join o q.1, q.2)) := by
  rw [h]
  cases (readOperands ts).result <;> rfl

theorem read_operands_bare (ts : List Token) :
    (readOperands (ts.map Token.bare)).result = bareResult (readOperands ts).result := by
  fun_induction readOperands ts with
  | case1 rest log e h =>
    change (readOperands (.times :: rest.map Token.bare)).result = _
    rw [read_operands_times, Traced.result_bind, Operand.read_bare, h]
    rfl
  | case2 rest log o after h _ ih =>
    change (readOperands (.times :: rest.map Token.bare)).result = _
    rw [read_operands_times, Traced.result_bind, Operand.read_bare, h]
    exact join_operands_bare Fraction.consAbove o ih
  | case3 rest log e h =>
    change (readOperands (.divide :: rest.map Token.bare)).result = _
    rw [read_operands_divide, Traced.result_bind, Operand.read_bare, h]
    rfl
  | case4 rest log o after h _ ih =>
    change (readOperands (.divide :: rest.map Token.bare)).result = _
    rw [read_operands_divide, Traced.result_bind, Operand.read_bare, h]
    exact join_operands_bare Fraction.consBelow o ih
  | case5 ts ht hd =>
    rw [read_operands_stop (Token.map_bare_ne rfl ht) (Token.map_bare_ne rfl hd)]
    rfl

theorem reduce_error {f : Fraction} {e : Failure} (h : f.reduce = .error e) : e.bare = e := by
  rw [Fraction.reduce] at h
  split_ifs at h
  cases h
  rfl

theorem read_bare (ts : List Token) :
    (read (ts.map Token.bare)).result = bareResult (read ts).result := by
  simp only [read, Traced.result_bind, Traced.result_ofResult, Operand.read_bare]
  refine bare_result_bind fun first rest => ?_
  rw [read_operands_bare]
  refine bare_result_bind fun others rest => ?_
  exact bare_result_computed (fun e => reduce_error) fun t => rfl

theorem read_bare_eq {ts : List Token} {log : List Record} {x : Except Failure (Term × List Token)}
    (h : read ts = ⟨log, x⟩) :
    read (ts.map Token.bare) = ⟨(read (ts.map Token.bare)).log, bareResult x⟩ :=
  Traced.eq_mk_of_result (by rw [read_bare, h])

end Term

namespace SideReading

/-- Reading without spelling gives the same terms, and stops alike. -/
structure Respelled (r s : SideReading) : Prop where
  terms : s.terms = r.terms
  failure : s.failure? = r.failure?.map Failure.bare

theorem respelled_stop (log log' : List Record) (e : Failure) :
    Respelled (stop log e) (stop log' e.bare) :=
  ⟨rfl, rfl⟩

theorem Respelled.cons {r s : SideReading} (h : Respelled r s) (t : Term) (log log' : List Record) :
    Respelled (.cons t log r) (.cons t log' s) :=
  ⟨congrArg (t :: ·) h.terms, h.failure⟩

theorem read_terms_bare (side sign : Float) (ts : List Token) :
    Respelled (readTerms side sign ts) (readTerms side sign (ts.map Token.bare)) := by
  fun_induction readTerms side sign ts with
  | case1 sign ts log e h =>
    rw [read_terms_error (Term.read_bare_eq h)]
    exact respelled_stop _ _ e
  | case2 sign ts log t h =>
    rw [read_terms_last (Term.read_bare_eq h)]
    exact Respelled.cons ⟨rfl, rfl⟩ _ _ _
  | case3 sign ts log t rest h _ ih =>
    rw [read_terms_plus (Term.read_bare_eq h)]
    exact ih.cons _ _ _
  | case4 sign ts log t rest h _ ih =>
    rw [read_terms_minus (Term.read_bare_eq h)]
    exact ih.cons _ _ _
  | case5 sign ts log t found rest hp hm h =>
    have hp' : found.bare ≠ .plus := fun hf => hp (Token.bare_eq_symbol rfl hf)
    have hm' : found.bare ≠ .minus := fun hf => hm (Token.bare_eq_symbol rfl hf)
    rw [read_terms_other hp' hm' (Term.read_bare_eq h)]
    exact (respelled_stop [] [] (.malformed (.afterTerm found))).cons _ _ _

theorem read_bare (sign : Float) (ts : List Token) :
    Respelled (read sign ts) (read sign (ts.map Token.bare)) := by
  rw [read, read, List.isEmpty_map]
  split_ifs
  · exact ⟨rfl, rfl⟩
  · have h := read_terms_bare sign sign ts
    exact ⟨h.terms, h.failure⟩

theorem Respelled.result_add_to {r s : SideReading} (h : Respelled r s) (table : Table) :
    (s.addTo table).result = (r.addTo table).result.mapError Failure.bare := by
  rw [SideReading.result_add_to, SideReading.result_add_to, h.terms, h.failure]
  cases r.failure? <;> rfl

end SideReading

theorem Token.split_sides_bare (ts : List Token) : splitSides (ts.map bare) =
    ((splitSides ts).map fun p => (p.1.map bare, p.2.map bare)).mapError Failure.bare := by
  have hequals : (fun t : Token => t != equals) ∘ bare = fun t => t != equals :=
    funext fun t => congrArg not (bare_beq_equals t)
  have hcount : (ts.map bare).count equals = ts.count equals := by
    rw [List.count, List.countP_map]
    exact congrArg (List.countP · ts) (funext bare_beq_equals)
  rw [splitSides, splitSides, hcount, List.takeWhile_map, List.dropWhile_map, hequals, ← List.map_drop]
  split <;> rfl

/-! ## Equations of one wording -/

namespace Equation

theorem raw_table_bare (ts : List Token) :
    (rawTable (ts.map Token.bare)).result = (rawTable ts).result.mapError Failure.bare := by
  simp only [rawTable, Traced.result_bind, Traced.result_ofResult, Token.split_sides_bare]
  cases Token.splitSides ts with
  | error e => rfl
  | ok sides =>
    have hleft := SideReading.read_bare 1.0 sides.1
    have hright := SideReading.read_bare (-1.0) sides.2
    change (((SideReading.read 1.0 (sides.1.map Token.bare)).addTo {}).result >>= fun table =>
      ((SideReading.read (-1.0) (sides.2.map Token.bare)).addTo table).result) = _
    rw [hleft.result_add_to, ok_bind]
    cases ((SideReading.read 1.0 sides.1).addTo {}).result with
    | error e => rfl
    | ok table => exact hright.result_add_to table

/-- Two answers that differ in spellings only: the same solution and the same texts except the tokens,
or the same failure, or two faults of the text. -/
inductive SameButSpelling : Except Failure (Solution × Working) →
    Except Failure (Solution × Working) → Prop
  | solved (solution : Solution) (w : Working) (tokens : String) :
    SameButSpelling (.ok (solution, w)) (.ok (solution, { w with tokens := tokens }))
  | misspelt (cause cause' : Misspelling) :
    SameButSpelling (.error (.malformed cause)) (.error (.malformed cause'))
  | refused (e : Failure) : SameButSpelling (.error e) (.error e)

theorem answer_same_but_spelling (ts us : List Token) (raw : Table) :
    SameButSpelling (answer ts raw) (answer us raw) := by
  rw [answer, answer]
  cases raw.validate with
  | error e => exact .refused e
  | ok table =>
    rw [ok_bind, ok_bind]
    cases table.solve.result with
    | error e => exact .refused e
    | ok solution => exact .solved solution _ _

theorem refused_same_but_spelling {e e' : Failure} (h : e.bare = e'.bare) :
    SameButSpelling (.error e) (.error e') := by
  cases e with
  | malformed cause =>
    cases e' with
    | malformed cause' => exact .misspelt cause cause'
    | _ => cases h
  | _ =>
    cases e' with
    | malformed cause' => cases h
    | _ => exact Eq.subst (motive := fun e => SameButSpelling (.error _) (.error e)) h (.refused _)

/-- How numbers are spelled does not matter: texts with the same words have the same answer. -/
theorem solve_respelled {s s' : String} {ts us : List Token} (hs : Token.scanText s = .ok ts)
    (hs' : Token.scanText s' = .ok us) (h : List.Forall₂ Token.SameWord ts us) :
    SameButSpelling (solve s).result (solve s').result := by
  have hraw : (rawTable ts).result.mapError Failure.bare =
      (rawTable us).result.mapError Failure.bare := by
    rw [← raw_table_bare, ← raw_table_bare, Token.map_bare_eq h]
  rw [result_solve, result_solve, hs, hs', ok_bind, ok_bind]
  cases hr : (rawTable ts).result with
  | error e =>
    cases hr' : (rawTable us).result with
    | error e' =>
      rw [hr, hr'] at hraw
      exact refused_same_but_spelling (Except.error.inj hraw)
    | ok raw' =>
      rw [hr, hr'] at hraw
      cases hraw
  | ok raw =>
    cases hr' : (rawTable us).result with
    | error e' =>
      rw [hr, hr'] at hraw
      cases hraw
    | ok raw' =>
      rw [hr, hr'] at hraw
      cases hraw
      exact answer_same_but_spelling ts us raw

theorem solve_respelled_sample :
    Token.scanText "2*X=4" = .ok [.number 2.0 "2", .times, .unknown, .equals, .number 4.0 "4"] ∧
      Token.scanText "02*X=4.00" =
        .ok [.number 2.0 "02", .times, .unknown, .equals, .number 4.0 "4.00"] ∧
      SameButSpelling (solve "2*X=4").result (solve "02*X=4.00").result := by
  have hs : Token.scanText "2*X=4" =
      .ok [.number 2.0 "2", .times, .unknown, .equals, .number 4.0 "4"] := by decide +kernel
  have hs' : Token.scanText "02*X=4.00" =
      .ok [.number 2.0 "02", .times, .unknown, .equals, .number 4.0 "4.00"] := by decide +kernel
  exact ⟨hs, hs', solve_respelled hs hs' <|
    .cons (.number _ _ _) <| .cons (.symbol _) <| .cons (.symbol _) <| .cons (.symbol _) <|
      .cons (.number _ _ _) .nil⟩

end Equation
end Trinomial
