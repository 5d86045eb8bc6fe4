import Trinomial.Proofs.Grammar.Stopping

/-! # The places of factors in a term

What a term comes to depends on four lists: the numbers and the exponents of the unknown above the bar, and
those below it, each from left to right. How the four are mixed in the term does not matter, and only the
numbers below the bar decide whether it is refused.
-/
set_option autoImplicit false

namespace Trinomial.Grammar

/-! ## The four lists of a term -/

/-- The towers that start a factor. -/
def TermTree.above (t : TermTree) : List TowerTree := (t.first :: t.others).map FactorTree.first

/-- The towers that are divided by. -/
def TermTree.below (t : TermTree) : List TowerTree := (t.first :: t.others).flatMap FactorTree.divisors

/-- All powers of the term have a result. -/
def TermTree.Defined (t : TermTree) : Prop := ∀ u ∈ t.towers, u.operand.isOk = true

instance (t : TermTree) : Decidable t.Defined := inferInstanceAs (Decidable (∀ u ∈ _, _))

/-- What those towers come to that come to anything. -/
def operands (us : List TowerTree) : List Operand := us.filterMap fun u => u.operand.toOption

/-- The numbers and the exponents of the unknown, above and below the bar. -/
structure Factors where
  numbers : List Float
  exponents : List Float
  divisors : List Float
  divisorExponents : List Float
deriving DecidableEq

def TermTree.factors (t : TermTree) : Factors where
  numbers := (operands t.above).filterMap Operand.literal?
  exponents := (operands t.above).filterMap Operand.exponent?
  divisors := (operands t.below).filterMap Operand.literal?
  divisorExponents := (operands t.below).filterMap Operand.exponent?

/-- The product of the numbers below the bar. -/
def Factors.denominator (f : Factors) : Float := f.divisors.foldl (· * ·) 1.0

/-- The quotient of the products, and the difference of the sums. -/
def Factors.term (f : Factors) : Term :=
  ⟨f.numbers.foldl (· * ·) 1.0 / f.denominator,
    .ofExponent (f.exponents.foldl (· + ·) 0.0 - f.divisorExponents.foldl (· + ·) 0.0)⟩

/-! ## Terms whose powers have a result -/

theorem operands_eq_ok_iff {us : List TowerTree} {os : List Operand} : us.mapM TowerTree.operand = .ok os ↔
    (∀ u ∈ us, u.operand.isOk = true) ∧ os = operands us := by
  induction us generalizing os with
  | nil => exact ⟨fun h => ⟨nofun, (Except.ok.inj h).symm⟩, fun h => congrArg Except.ok h.2.symm⟩
  | cons u us ih =>
    rw [List.mapM_cons, operands, List.forall_mem_cons]
    cases ho : u.operand with
    | error e => simp [Except.isOk, Except.toBool]
    | ok o =>
      rw [ok_bind, bind_eq_ok, List.filterMap_cons_some (by rw [ho]; rfl)]
      simp only [ih]
      constructor
      · rintro ⟨_, ⟨hus, rfl⟩, h⟩
        cases h
        exact ⟨⟨rfl, hus⟩, rfl⟩
      · rintro ⟨⟨-, hus⟩, rfl⟩
        exact ⟨_, ⟨hus, rfl⟩, rfl⟩

/-- The part of a term's fraction that a factor gives. -/
def FactorTree.share (f : FactorTree) : Fraction := ⟨operands [f.first], operands f.divisors⟩

theorem fraction_iff {f : FactorTree} {g : Fraction} : f.fraction = .ok g ↔
    (∀ u ∈ f.towers, u.operand.isOk = true) ∧ g = f.share := by
  rw [FactorTree.fraction, FactorTree.towers, FactorTree.share, List.forall_mem_cons, operands]
  cases ho : f.first.operand with
  | error e => simp [Except.isOk, Except.toBool]
  | ok o =>
    rw [ok_bind, bind_eq_ok, List.filterMap_cons_some (by rw [ho]; rfl)]
    simp only [operands_eq_ok_iff]
    constructor
    · rintro ⟨_, ⟨hus, rfl⟩, h⟩
      cases h
      exact ⟨⟨rfl, hus⟩, rfl⟩
    · rintro ⟨⟨-, hus⟩, rfl⟩
      exact ⟨_, ⟨hus, rfl⟩, rfl⟩

theorem fractions_eq_ok_iff {fs : List FactorTree} {gs : List Fraction} :
    fs.mapM FactorTree.fraction = .ok gs ↔
      (∀ f ∈ fs, ∀ u ∈ f.towers, u.operand.isOk = true) ∧ gs = fs.map FactorTree.share := by
  induction fs generalizing gs with
  | nil => exact ⟨fun h => ⟨nofun, (Except.ok.inj h).symm⟩, fun h => congrArg Except.ok h.2.symm⟩
  | cons f fs ih =>
    rw [List.mapM_cons, bind_eq_ok, List.forall_mem_cons, List.map_cons]
    simp only [fraction_iff, bind_eq_ok, ih]
    constructor
    · rintro ⟨_, ⟨hf, rfl⟩, _, ⟨hfs, rfl⟩, h⟩
      cases h
      exact ⟨⟨hf, hfs⟩, rfl⟩
    · rintro ⟨⟨hf, hfs⟩, rfl⟩
      exact ⟨_, ⟨hf, rfl⟩, _, ⟨hfs, rfl⟩, rfl⟩

/-! ## Terms -/

theorem concat_share (fs : List FactorTree) : concat (fs.map FactorTree.share) =
    ⟨operands (fs.map FactorTree.first), operands (fs.flatMap FactorTree.divisors)⟩ := by
  have happend (us vs : List TowerTree) : operands (us ++ vs) = operands us ++ operands vs :=
    List.filterMap_append
  induction fs with
  | nil => rfl
  | cons f fs ih =>
    obtain ⟨habove, hbelow⟩ := Fraction.mk.inj ih
    have hfirst : operands (f.first :: fs.map FactorTree.first) =
        operands [f.first] ++ operands (fs.map FactorTree.first) := happend [f.first] _
    rw [List.map_cons, List.flatMap_cons, List.map_cons, hfirst, happend, ← habove, ← hbelow]
    rfl

theorem defined_iff (t : TermTree) :
    t.Defined ↔ ∀ f ∈ t.first :: t.others, ∀ u ∈ f.towers, u.operand.isOk = true := by
  have htowers : t.towers = (t.first :: t.others).flatMap FactorTree.towers := rfl
  rw [TermTree.Defined, htowers]
  simp only [List.mem_flatMap]
  exact ⟨fun h f hf u hu => h u ⟨f, hf, hu⟩, fun h u ⟨f, hf, hu⟩ => h f hf u hu⟩

/-- A term has a value when its powers are defined and the numbers below the bar count. -/
theorem term_value_of_defined {t : TermTree} (h : t.Defined) : t.value =
    if Number.isNegligible t.factors.denominator then
      .error (.zeroDivision (.denominator t.factors.denominator))
    else .ok t.factors.term := by
  have hfractions := fractions_eq_ok_iff.mpr ⟨(defined_iff t).mp h, rfl⟩
  rw [term_value_eq_reduce, hfractions, map_ok, ok_bind, concat_share]
  rfl

theorem defined_of_term_value {t : TermTree} {v : Term} (h : t.value = .ok v) : t.Defined := by
  rw [term_value_eq_reduce] at h
  obtain ⟨_, h, -⟩ := bind_eq_ok.mp h
  obtain ⟨gs, h, -⟩ := map_eq_ok.mp h
  exact (defined_iff t).mpr (fractions_eq_ok_iff.mp h).1

/-- A term of bounded towers whose powers are defined, in front of tokens that cannot continue it. -/
structure TermTree.StandsBefore (t : TermTree) (rest : List Token) : Prop where
  admissible : ∀ u ∈ t.towers, u.Admissible
  defined : t.Defined
  ends : EndsTerm rest

section Reading
variable {t u : TermTree} {rest rest' : List Token}

theorem read_term_of_factors (h : t.StandsBefore rest) : (Term.read (t.tokens ++ rest)).result =
    if Number.isNegligible t.factors.denominator then
      .error (.zeroDivision (.denominator t.factors.denominator))
    else .ok (t.factors.term, rest) := by
  rw [read_term_tokens (fun u hu => (h.admissible u hu).1) h.ends, term_value_of_defined h.defined]
  split <;> rfl

theorem read_term_error_iff (h : t.StandsBefore rest) {e : Failure} :
    (Term.read (t.tokens ++ rest)).result = .error e ↔
      Number.isNegligible t.factors.denominator = true ∧
        e = .zeroDivision (.denominator t.factors.denominator) := by
  rw [read_term_of_factors h]
  cases Number.isNegligible t.factors.denominator <;> simp [eq_comm]

theorem read_term_ok_iff (h : t.StandsBefore rest) {p : Term × List Token} :
    (Term.read (t.tokens ++ rest)).result = .ok p ↔
      Number.isNegligible t.factors.denominator = false ∧ p = (t.factors.term, rest) := by
  rw [read_term_of_factors h]
  cases Number.isNegligible t.factors.denominator <;> simp [eq_comm]

/-- Powers of the unknown below the bar are no reason to refuse a term. -/
theorem read_term_without_divisors (h : t.StandsBefore rest) (hdivisors : t.factors.divisors = []) :
    (Term.read (t.tokens ++ rest)).result = .ok (t.factors.term, rest) := by
  have hone : t.factors.denominator = 1.0 := by rw [Factors.denominator, hdivisors, List.foldl_nil]
  refine (read_term_ok_iff h).mpr ⟨?_, rfl⟩
  rw [hone]
  decide +kernel

theorem read_term_congr (ht : t.StandsBefore rest) (hu : u.StandsBefore rest') (h : t.factors = u.factors) :
    (Term.read (t.tokens ++ rest)).result.map Prod.fst =
      (Term.read (u.tokens ++ rest')).result.map Prod.fst := by
  rw [read_term_of_factors ht, read_term_of_factors hu, h]
  split <;> rfl

end Reading

/-- Where the factors of a term stand does not matter. Two terms with the same four lists of factors are read
as the same term, or refused with the same failure. It is a division by zero, exactly if the product from left
to right of the numbers below the bar is negligible; without such numbers it does not happen. So whatever is
read as a term is a quotient with a divisor that counts. -/
theorem places_of_factors_do_not_matter :
    (∀ (t u : TermTree) rest rest', t.StandsBefore rest → u.StandsBefore rest' → t.factors = u.factors →
      (Term.read (t.tokens ++ rest)).result.map Prod.fst =
        (Term.read (u.tokens ++ rest')).result.map Prod.fst) ∧
    (∀ (t : TermTree) rest, t.StandsBefore rest →
      (∀ e, (Term.read (t.tokens ++ rest)).result = .error e ↔
        Number.isNegligible (t.factors.divisors.foldl (· * ·) 1.0) = true ∧
          e = .zeroDivision (.denominator (t.factors.divisors.foldl (· * ·) 1.0))) ∧
      (∀ p, (Term.read (t.tokens ++ rest)).result = .ok p ↔
        Number.isNegligible (t.factors.divisors.foldl (· * ·) 1.0) = false ∧ p = (t.factors.term, rest)) ∧
      (t.factors.divisors = [] →
        (Term.read (t.tokens ++ rest)).result = .ok (t.factors.term, rest))) ∧
    ∀ ts v rest, (Term.read ts).result = .ok (v, rest) →
      ∃ t : TermTree, ts = t.tokens ++ rest ∧ t.StandsBefore rest ∧
        v.coefficient = t.factors.numbers.foldl (· * ·) 1.0 / t.factors.denominator ∧
        Number.isNegligible t.factors.denominator = false := by
  refine ⟨fun t u rest rest' ht hu h => read_term_congr ht hu h, fun t rest h =>
    ⟨fun e => read_term_error_iff h, fun p => read_term_ok_iff h, read_term_without_divisors h⟩,
    fun ts v rest h => ?_⟩
  obtain ⟨t, ht, rfl, hv⟩ := read_term_value h
  have hstands : t.StandsBefore rest := ⟨ht, defined_of_term_value hv, term_end h⟩
  obtain ⟨hcounts, hp⟩ := (read_term_ok_iff hstands).mp h
  obtain ⟨rfl, -⟩ := Prod.mk.inj hp
  exact ⟨t, rfl, hstands, rfl, hcounts⟩

def numberTower (v : Float) (spelling : String) : TowerTree := .atom (.number none v spelling)

/-- `8 / 2 ^ 0.5 * X / X ^ 3 / 4`. -/
def mixedTerm : TermTree :=
  ⟨⟨numberTower 8.0 "8", [.power (.number none 2.0 "2") (numberTower 0.5 "0.5")]⟩,
    [⟨.atom .unknown, [.power .unknown (numberTower 3.0 "3"), numberTower 4.0 "4"]⟩]⟩

/-- `X * 8 / X ^ 3 / 2 ^ 0.5 / 4`. -/
def sortedTerm : TermTree :=
  ⟨⟨.atom .unknown, []⟩,
    [⟨numberTower 8.0 "8", [.power .unknown (numberTower 3.0 "3"),
      .power (.number none 2.0 "2") (numberTower 0.5 "0.5"), numberTower 4.0 "4"]⟩]⟩

/-- `5 / 0 / X`. -/
def refusedTerm : TermTree := ⟨⟨numberTower 5.0 "5", [numberTower 0.0 "0", .atom .unknown]⟩, []⟩

theorem places_of_factors_samples :
    mixedTerm.tokens ≠ sortedTerm.tokens ∧
    (Term.read (mixedTerm.tokens ++ [.plus])).result.map Prod.fst =
      (Term.read (sortedTerm.tokens ++ [])).result.map Prod.fst ∧
    (∃ v, (Term.read (mixedTerm.tokens ++ [.plus])).result = .ok (v, [.plus])) ∧
    (Term.read (refusedTerm.tokens ++ [])).result = .error (.zeroDivision (.denominator 0.0)) := by
  have hmixed : mixedTerm.StandsBefore [.plus] :=
    ⟨by decide, by decide +kernel, nofun, nofun, nofun⟩
  have hsorted : sortedTerm.StandsBefore [] := ⟨by decide, by decide +kernel, nofun, nofun, nofun⟩
  have hrefused : refusedTerm.StandsBefore [] := ⟨by decide, by decide +kernel, nofun, nofun, nofun⟩
  obtain ⟨hsame, hterm, -⟩ := places_of_factors_do_not_matter
  exact ⟨by decide, hsame _ _ _ _ hmixed hsorted (by decide +kernel),
    ⟨_, ((hterm _ _ hmixed).2.1 _).mpr ⟨by decide +kernel, rfl⟩⟩,
    ((hterm _ _ hrefused).1 _).mpr ⟨by decide +kernel, by decide +kernel⟩⟩

end Trinomial.Grammar
