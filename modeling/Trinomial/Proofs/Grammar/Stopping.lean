import Mathlib.Tactic.Common
import Trinomial.Proofs.Grammar.Equations

/-! # Sides that fail

A side that fails has read some complete terms, and these are in the table: what comes behind them is
either a term that fails by itself or a token that cannot follow a term.
-/
set_option autoImplicit false

namespace Trinomial

/-! ## Terms that fail -/

/-- What a term can fail with: its wording, a power, or its denominator. -/
inductive TermFailure : Failure → Prop where
  | unfinished : TermFailure (.malformed .unfinishedTerm)
  | noOperand (found : Token) : TermFailure (.malformed (.operandExpected found))
  | noNumber (sign : Token) (found : Option Token) :
    TermFailure (.malformed (.signWithoutNumber sign found))
  | tallTower : TermFailure (.malformed .tallTower)
  | unknownInExponent : TermFailure (.malformed .unknownInExponent)
  | power {base exponent : Float} {e : Failure} (h : (Number.power base exponent).result = .error e) :
    TermFailure e
  | denominator {m : Float} (h : Number.isNegligible m = true) :
    TermFailure (.zeroDivision (.denominator m))

namespace TermFailure
variable {e : Failure}

theorem of_signed {sign : Token} {f : Float → Float} {ts : List Token}
    (h : Atom.readSigned sign f ts = .error e) : TermFailure e := by
  unfold Atom.readSigned at h
  split at h
  · cases h
  · cases h
    exact .noNumber sign _
  · cases h
    exact .noNumber sign none

theorem of_atom {ts : List Token} (h : Atom.read ts = .error e) : TermFailure e := by
  unfold Atom.read at h
  split at h
  · cases h
  · cases h
  · exact of_signed h
  · exact of_signed h
  · cases h
    exact .noOperand _
  · cases h
    exact .unfinished

theorem of_exponent {o : Operand} (h : o.asExponent = .error e) : TermFailure e := by
  cases o with
  | literal => cases h
  | unknownPower =>
    cases h
    exact .unknownInExponent

theorem of_raised {base : Atom} {exponent : Float} (h : (base.raised exponent).result = .error e) :
    TermFailure e := by
  obtain ⟨v, -, hpower⟩ := Atom.raised_eq_error.mp h
  exact .power hpower

theorem of_tower {levels : Nat} {ts : List Token} (h : (Operand.readTower levels ts).result = .error e) :
    TermFailure e := by
  induction levels generalizing ts with
  | zero =>
    cases h
    exact .tallTower
  | succ levels ih =>
    rcases Operand.read_tower_error_iff.mp h with h | ⟨base, inner, -, h | ⟨top, rest, -, h | ⟨_, -, h⟩⟩⟩
    · exact of_atom h
    · exact ih h
    · exact of_exponent h
    · exact of_raised h

theorem of_operands {ts : List Token} (h : (Term.readOperands ts).result = .error e) : TermFailure e := by
  fun_induction Term.readOperands ts with
  | case1 rest log e' ho =>
    cases h
    exact of_tower (congrArg Traced.result ho)
  | case2 rest log o after ho _ ih => exact ih (map_eq_error.mp h)
  | case3 rest log e' ho =>
    cases h
    exact of_tower (congrArg Traced.result ho)
  | case4 rest log o after ho _ ih => exact ih (map_eq_error.mp h)
  | case5 => cases h

theorem of_reduce {f : Fraction} (h : f.reduce = .error e) : TermFailure e := by
  rw [Fraction.reduce] at h
  split_ifs at h with hm
  cases h
  exact .denominator hm

theorem of_term {ts : List Token} (h : (Term.read ts).result = .error e) : TermFailure e := by
  simp only [Term.read, Traced.result_bind, Traced.result_ofResult] at h
  rcases bind_eq_error.mp h with h | ⟨_, -, h⟩
  · exact of_tower h
  rcases bind_eq_error.mp h with h | ⟨_, -, h⟩
  · exact of_operands h
  rcases bind_eq_error.mp h with h | ⟨_, -, h⟩
  · exact of_reduce h
  · cases h

end TermFailure

namespace Grammar

/-! ## Terms that are complete -/

theorem operands_end {ts rest : List Token} {f : Fraction}
    (h : (Term.readOperands ts).result = .ok (f, rest)) (hts : ts.head? ≠ some .caret) :
    EndsTerm rest := by
  fun_induction Term.readOperands ts generalizing f rest with
  | case1 => cases h
  | case2 _ log o after ho _ ih =>
    obtain ⟨⟨g, rest'⟩, hg, hp⟩ := map_eq_ok.mp h
    cases hp
    obtain ⟨-, -, -, -, hcaret⟩ := read_tower_tree (congrArg Traced.result ho)
    exact ih hg hcaret
  | case3 => cases h
  | case4 _ log o after ho _ ih =>
    obtain ⟨⟨g, rest'⟩, hg, hp⟩ := map_eq_ok.mp h
    cases hp
    obtain ⟨-, -, -, -, hcaret⟩ := read_tower_tree (congrArg Traced.result ho)
    exact ih hg hcaret
  | case5 ts htimes hdivide =>
    cases h
    refine ⟨hts, fun hh => ?_, fun hh => ?_⟩
    · obtain ⟨us, rfl⟩ := List.head?_eq_some_iff.mp hh
      exact htimes us rfl
    · obtain ⟨us, rfl⟩ := List.head?_eq_some_iff.mp hh
      exact hdivide us rfl

theorem term_end {ts rest : List Token} {v : Term} (h : (Term.read ts).result = .ok (v, rest)) :
    EndsTerm rest := by
  obtain ⟨o, after, f, _, _, ho, hf, -⟩ := Term.read_ok_iff.mp (Traced.eq_mk_of_result h)
  obtain ⟨-, -, -, -, hcaret⟩ := read_tower_tree (congrArg Traced.result ho)
  exact operands_end (congrArg Traced.result hf) hcaret

/-- What is read as a term is the tokens of one, and its value is what it was read as. -/
theorem read_term_value {ts rest : List Token} {v : Term} (h : (Term.read ts).result = .ok (v, rest)) :
    ∃ t : TermTree, (∀ u ∈ t.towers, u.Admissible) ∧ ts = t.tokens ++ rest ∧ t.value = .ok v := by
  obtain ⟨t, ht, rfl⟩ := read_term_tree h
  rw [read_term_tokens (fun u hu => (ht u hu).1) (term_end h)] at h
  obtain ⟨v', hv, hp⟩ := map_eq_ok.mp h
  cases hp
  exact ⟨t, ht, rfl, hv⟩

end Grammar

/-! ## The table that a side leaves -/

namespace SideReading

theorem leaves_cons (t : Term) (log : List Record) (r : SideReading) (table : Table) :
    (cons t log r).leaves table = r.leaves (table.add t) := rfl

theorem add_to_eq_error {r : SideReading} {table : Table} {e : Failure} :
    (r.addTo table).result = .error e ↔ r.failure? = some e := by
  unfold addTo
  cases r.failure? with
  | none => exact ⟨nofun, nofun⟩
  | some e' =>
    exact ⟨fun h => congrArg some (Except.error.inj h), fun h => congrArg Except.error (Option.some.inj h)⟩

theorem read_terms_sign {side sign : Float} {g : Grammar.Sign} {ts rest : List Token} {log : List Record}
    {t : Term} (h : Term.read ts = ⟨log, .ok (t, g.token :: rest)⟩) :
    readTerms side sign ts = cons (t.scale sign) log (readTerms side (g.apply side) rest) := by
  cases g with
  | plus => exact read_terms_plus h
  | minus => exact read_terms_minus h

end SideReading

namespace Grammar

/-- What follows a complete term makes the side fail: a sign before a term that fails, or a token that
neither continues the term nor is a sign. -/
inductive FailsBehind : List Token → Failure → Prop where
  | term {g : Sign} {rest : List Token} {e : Failure} (h : (Term.read rest).result = .error e) :
    FailsBehind (g.token :: rest) e
  | token {found : Token} {rest : List Token}
    (h : found ∉ [Token.plus, .minus, .times, .divide, .caret]) :
    FailsBehind (found :: rest) (.malformed (.afterTerm found))

/-- Where the reading of terms fails: at the first one, or behind complete ones. -/
inductive FailsAt : List Token → Option SideTree → Failure → Prop where
  | first {ts : List Token} {e : Failure} (h : (Term.read ts).result = .error e) : FailsAt ts none e
  | behind {s : SideTree} {rest : List Token} {e : Failure} (hs : s.Admissible) (h : FailsBehind rest e) :
    FailsAt (s.tokens ++ rest) (some s) e

/-- The complete terms with the numbers they count with: `sign` for the first, and for the others `side`
or its opposite, as the sign before them says. -/
def leading (side sign : Float) : Option SideTree → List (Float × TermTree)
  | none => []
  | some s => (sign, s.first) :: s.others.map fun p => (p.1.apply side, p.2)

/-- The complete terms with one more in front. -/
def front (t : TermTree) (g : Sign) : Option SideTree → SideTree
  | none => ⟨t, []⟩
  | some s => ⟨t, (g, s.first) :: s.others⟩

variable {side sign : Float} {ts rest : List Token} {e : Failure} {t : TermTree} {v : Term} {g : Sign}

theorem leading_front (s? : Option SideTree) :
    leading side sign (some (front t g s?)) = (sign, t) :: leading side (g.apply side) s? := by
  cases s? <;> rfl

theorem front_admissible {s? : Option SideTree} (ht : ∀ u ∈ t.towers, u.Admissible)
    (hs : ∀ s ∈ s?, s.Admissible) : (front t g s?).Admissible := by
  intro u hu
  rcases List.mem_append.mp hu with hu | hu
  · cases s? <;> exact ht u hu
  · cases s? with
    | none => cases hu
    | some s => exact hs s rfl u hu

theorem fold_signed_eq_ok {ps : List (Float × TermTree)} {table table' : Table} :
    ((sign, t) :: ps).foldlM addSigned table = .ok table' ↔
      ∃ v, t.value = .ok v ∧ ps.foldlM addSigned (table.add (v.scale sign)) = .ok table' := by
  rw [List.foldlM_cons, bind_eq_ok]
  constructor
  · rintro ⟨_, hadd, hps⟩
    obtain ⟨v, hv, rfl⟩ := map_eq_ok.mp hadd
    exact ⟨v, hv, hps⟩
  · rintro ⟨v, hv, hps⟩
    exact ⟨_, map_eq_ok.mpr ⟨v, hv, rfl⟩, hps⟩

theorem one_tokens (t : TermTree) : (⟨t, []⟩ : SideTree).tokens = t.tokens := List.append_nil _

theorem front_tokens (t : TermTree) (g : Sign) (s : SideTree) :
    (front t g (some s)).tokens = t.tokens ++ g.token :: s.tokens := rfl

theorem sign_ends (g : Sign) (rest : List Token) : EndsTerm (g.token :: rest) := by
  cases g <;> exact ⟨nofun, nofun, nofun⟩

theorem not_operator_iff (rest : List Token) {found : Token} :
    found ∉ [Token.plus, .minus, .times, .divide, .caret] ↔
      EndsTerm (found :: rest) ∧ found ≠ .plus ∧ found ≠ .minus := by
  cases found <;> simp [EndsTerm]

theorem FailsBehind.ends (h : FailsBehind rest e) : EndsTerm rest := by
  cases h with
  | @term g rest _ h => exact sign_ends g rest
  | token h => exact ((not_operator_iff _).mp h).1

/-! ## From the reading to the terms -/

theorem FailsAt.behind_one (ht : ∀ u ∈ t.towers, u.Admissible) (h : FailsBehind rest e) :
    FailsAt (t.tokens ++ rest) (some ⟨t, []⟩) e := by
  have hone : (Grammar.front t .plus none).Admissible := front_admissible ht nofun
  rw [← one_tokens]
  exact .behind hone h

theorem FailsAt.front {s? : Option SideTree} (ht : ∀ u ∈ t.towers, u.Admissible)
    (h : FailsAt rest s? e) : FailsAt (t.tokens ++ g.token :: rest) (some (front t g s?)) e := by
  cases h with
  | first h => exact .behind_one ht (.term h)
  | @behind s rest _ hs h =>
    have hfront : (Grammar.front t g (some s)).Admissible := front_admissible ht fun u hu => by
      rwa [← Option.some.inj hu]
    rw [← List.cons_append, ← List.append_assoc, ← front_tokens]
    exact .behind hfront h

/-- A complete term and a sign in front of what fails. -/
theorem fails_behind_sign {log : List Record} {r : SideReading}
    (hread : Term.read ts = ⟨log, .ok (v, g.token :: rest)⟩)
    (h : ∃ s?, FailsAt rest s? e ∧ ∀ table,
      (leading side (g.apply side) s?).foldlM addSigned table = .ok (r.leaves table)) :
    ∃ s?, FailsAt ts s? e ∧ ∀ table, (leading side sign s?).foldlM addSigned table =
      .ok ((SideReading.cons (v.scale sign) log r).leaves table) := by
  obtain ⟨t, ht, rfl, hv⟩ := read_term_value (congrArg Traced.result hread)
  obtain ⟨s?, hs, hleaves⟩ := h
  refine ⟨_, hs.front ht, fun table => ?_⟩
  rw [leading_front, SideReading.leaves_cons]
  exact fold_signed_eq_ok.mpr ⟨v, hv, hleaves _⟩

/-- A failing side has read complete terms, and the table it leaves is what these add up to. -/
theorem fails_of_read_terms (h : (SideReading.readTerms side sign ts).failure? = some e) :
    ∃ s?, FailsAt ts s? e ∧ ∀ table, (leading side sign s?).foldlM addSigned table =
      .ok ((SideReading.readTerms side sign ts).leaves table) := by
  fun_induction SideReading.readTerms side sign ts with
  | case1 sign ts log e' ht =>
    cases h
    exact ⟨none, .first (congrArg Traced.result ht), fun table => rfl⟩
  | case2 => cases h
  | case3 sign ts log v rest hread _ ih => exact fails_behind_sign (g := .plus) hread (ih h)
  | case4 sign ts log v rest hread _ ih => exact fails_behind_sign (g := .minus) hread (ih h)
  | case5 sign ts log v found rest hplus hminus hread =>
    obtain ⟨t, ht, rfl, hv⟩ := read_term_value (congrArg Traced.result hread)
    cases h
    have hfound := (not_operator_iff rest).mpr ⟨term_end (congrArg Traced.result hread), hplus, hminus⟩
    exact ⟨_, .behind_one ht (.token hfound), fun table => fold_signed_eq_ok.mpr ⟨v, hv, rfl⟩⟩

/-! ## From the terms to the reading -/

/-- Complete terms are read up to what makes the side fail behind them. -/
theorem read_terms_of_fails {others : List (Sign × TermTree)} {table table' : Table}
    (h : FailsBehind rest e) (ht : ∀ u ∈ t.towers, u.Admissible)
    (ho : ∀ p ∈ others, ∀ u ∈ p.2.towers, u.Admissible)
    (hfold : (leading side sign (some ⟨t, others⟩)).foldlM addSigned table = .ok table') :
    (SideReading.readTerms side sign ((⟨t, others⟩ : SideTree).tokens ++ rest)).failure? = some e ∧
      (SideReading.readTerms side sign ((⟨t, others⟩ : SideTree).tokens ++ rest)).leaves table = table' := by
  induction others generalizing t sign table with
  | nil =>
    obtain ⟨v, hv, hfold⟩ := fold_signed_eq_ok.mp hfold
    have hread : (Term.read (t.tokens ++ rest)).result = .ok (v, rest) := by
      rw [read_term_tokens (fun u hu => (ht u hu).1) h.ends, hv]
      rfl
    cases hfold
    rw [one_tokens]
    cases h with
    | term h =>
      rw [SideReading.read_terms_sign (Traced.eq_mk_of_result hread),
        SideReading.read_terms_error (Traced.eq_mk_of_result h)]
      exact ⟨rfl, rfl⟩
    | token h =>
      obtain ⟨-, hplus, hminus⟩ := (not_operator_iff []).mp h
      rw [SideReading.read_terms_other hplus hminus (Traced.eq_mk_of_result hread)]
      exact ⟨rfl, rfl⟩
  | cons p others ih =>
    obtain ⟨g, u⟩ := p
    obtain ⟨v, hv, hfold⟩ := fold_signed_eq_ok.mp hfold
    have hread : (Term.read ((⟨t, (g, u) :: others⟩ : SideTree).tokens ++ rest)).result =
        .ok (v, g.token :: ((⟨u, others⟩ : SideTree).tokens ++ rest)) := by
      have htokens := front_tokens t g ⟨u, others⟩
      rw [front] at htokens
      rw [htokens, List.append_assoc, List.cons_append,
        read_term_tokens (fun u hu => (ht u hu).1) (sign_ends g _), hv]
      rfl
    rw [SideReading.read_terms_sign (Traced.eq_mk_of_result hread)]
    exact ih (ho _ List.mem_cons_self) (fun q hq => ho q (List.mem_cons_of_mem _ hq)) hfold

theorem leaves_read (hts : ts ≠ []) (table : Table) : (SideReading.read sign ts).leaves table =
    (SideReading.readTerms sign sign ts).leaves table := by
  cases ts with
  | nil => exact absurd rfl hts
  | cons c cs => rfl

/-- A failing side leaves its complete leading terms in the table, one addition for each, and nothing else:
the failure is that of the term behind them, which adds nothing, or the refusal of the token behind them. -/
theorem failing_side_leaves_terms (sign : Float) (table : Table) :
    (((SideReading.read sign []).addTo table).result = .error (.malformed .emptySide) ∧
      (SideReading.read sign []).leaves table = table) ∧
    (∀ ts ≠ [], ∀ e table', ((SideReading.read sign ts).addTo table).result = .error e ∧
        (SideReading.read sign ts).leaves table = table' ↔
      ∃ s?, FailsAt ts s? e ∧ (leading sign sign s?).foldlM addSigned table = .ok table') ∧
    ∀ rest e, (Term.read rest).result = .error e → TermFailure e := by
  refine ⟨⟨rfl, rfl⟩, fun ts hts e table' => ?_, fun rest e => TermFailure.of_term⟩
  rw [add_to_read hts, SideReading.add_to_eq_error, leaves_read hts]
  constructor
  · rintro ⟨h, rfl⟩
    obtain ⟨s?, hs, hleaves⟩ := fails_of_read_terms h
    exact ⟨s?, hs, hleaves table⟩
  · rintro ⟨s?, hs, hfold⟩
    cases hs with
    | first h =>
      cases hfold
      rw [SideReading.read_terms_error (Traced.eq_mk_of_result h)]
      exact ⟨rfl, rfl⟩
    | @behind s rest _ hs h =>
      refine read_terms_of_fails h (fun u hu => hs u (List.mem_append_left _ hu)) (fun p hp u hu => ?_) hfold
      exact hs u (List.mem_append_right _ (List.mem_flatMap.mpr ⟨p, hp, hu⟩))

/-- `2`, as a side. -/
def sampleTerm : SideTree := ⟨⟨⟨.atom (.number none 2.0 "2"), []⟩, []⟩, []⟩

/-- `3 / 0`. -/
def zeroDivisor : List Token := [.number 3.0 "3", .divide, .number 0.0 "0"]

/-- `X - 4 X`. -/
def missingSign : List Token := [.unknown, .minus, .number 4.0 "4", .unknown]

theorem failing_side_leaves_terms_samples :
    (((SideReading.read 1.0 (sampleTerm.tokens ++ .plus :: zeroDivisor)).addTo {}).result =
        .error (.zeroDivision (.denominator 0.0)) ∧
      (SideReading.read 1.0 (sampleTerm.tokens ++ .plus :: zeroDivisor)).leaves {} =
        ⟨[⟨2.0, .number 0.0⟩]⟩) ∧
    ∃ s?, FailsAt missingSign s? (.malformed (.afterTerm .unknown)) ∧
      (leading (-1.0) (-1.0) s?).foldlM addSigned {} =
        .ok ⟨[⟨4.0, .number 0.0⟩, ⟨-1.0, .number 1.0⟩]⟩ := by
  have hdivisor : (Term.read zeroDivisor).result = .error (.zeroDivision (.denominator 0.0)) := by
    decide +kernel
  have hfails := FailsAt.behind (s := sampleTerm) (by decide) (.term (g := .plus) hdivisor)
  have hsum : (leading 1.0 1.0 (some sampleTerm)).foldlM addSigned {} = .ok ⟨[⟨2.0, .number 0.0⟩]⟩ := by
    decide +kernel
  have hrefused : ((SideReading.read (-1.0) missingSign).addTo {}).result =
      .error (.malformed (.afterTerm .unknown)) := by decide +kernel
  have hne : sampleTerm.tokens ++ .plus :: zeroDivisor ≠ [] := List.cons_ne_nil _ _
  exact ⟨((failing_side_leaves_terms 1.0 {}).2.1 _ hne _ _).mpr ⟨_, hfails, hsum⟩,
    ((failing_side_leaves_terms (-1.0) {}).2.1 missingSign nofun _ _).mp ⟨hrefused, by decide +kernel⟩⟩

end Grammar
end Trinomial
