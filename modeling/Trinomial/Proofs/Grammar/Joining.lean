import Trinomial.Proofs.Equation.Reversal
import Trinomial.Proofs.Grammar.Stopping

/-! # Sides joined by a sign

A reader that came to its end does the same in front of more tokens, if these cannot continue what it
read, and it leaves them. So a side that was read to its end may be joined to another one by a sign: the
second is read from the sign on as if it stood alone, whether or not it fails.
-/
set_option autoImplicit false

namespace Trinomial

/-! ## More tokens behind what was read -/

theorem Atom.read_signed_append {sign : Token} {f : Float → Float} {ts rest : List Token} {a : Atom}
    (h : readSigned sign f ts = .ok (a, rest)) (tail : List Token) :
    readSigned sign f (ts ++ tail) = .ok (a, rest ++ tail) := by
  unfold readSigned at h
  split at h
  · cases h
    rfl
  · cases h
  · cases h

theorem Atom.read_append {ts rest : List Token} {a : Atom} (h : read ts = .ok (a, rest))
    (tail : List Token) : read (ts ++ tail) = .ok (a, rest ++ tail) := by
  unfold read at h
  split at h
  · cases h
    rfl
  · cases h
    rfl
  · exact read_signed_append h tail
  · exact read_signed_append h tail
  · cases h
  · cases h

variable {tail : List Token}

theorem head_append_ne {ts : List Token} {t : Token} (h : ts.head? ≠ some t) (htail : tail.head? ≠ some t) :
    (ts ++ tail).head? ≠ some t := by
  cases ts with
  | nil => exact htail
  | cons u us => exact h

theorem Operand.read_tower_append {levels : ℕ} {ts rest : List Token} {log : List Record} {o : Operand}
    (h : readTower levels ts = ⟨log, .ok (o, rest)⟩) (htail : tail.head? ≠ some .caret) :
    readTower levels (ts ++ tail) = ⟨log, .ok (o, rest ++ tail)⟩ := by
  induction levels generalizing ts rest log o with
  | zero => cases h
  | succ levels ih =>
    refine read_tower_ok_iff.mpr ?_
    rcases read_tower_ok_iff.mp h with ⟨base, hread, hcaret, h⟩ | ⟨base, inner, _, _, _, _, hread, htop, h⟩
    · exact .inl ⟨base, Atom.read_append hread tail, head_append_ne hcaret htail, h⟩
    · exact .inr ⟨base, inner ++ tail, _, _, _, _, Atom.read_append hread tail, ih htop, h⟩

namespace Term
variable {ts rest : List Token} {log : List Record} (htail : Grammar.EndsTerm tail)
include htail

theorem read_operands_append {f : Fraction} (h : readOperands ts = ⟨log, .ok (f, rest)⟩) :
    readOperands (ts ++ tail) = ⟨log, .ok (f, rest ++ tail)⟩ := by
  fun_induction readOperands ts generalizing f rest log with
  | case1 => cases h
  | case2 ts log₁ o after ho _ ih =>
    have hread := Operand.read_tower_append ho htail.1
    obtain ⟨log₂, ⟨g, rest'⟩, hg, hp⟩ := Traced.prepend_map_eq_ok h
    rw [hg] at h
    cases hp
    rw [List.cons_append, read_operands_times, Operand.read, hread, Traced.bind_ok, ih hg]
    simpa [Traced.map, Traced.prepend] using h
  | case3 => cases h
  | case4 ts log₁ o after ho _ ih =>
    have hread := Operand.read_tower_append ho htail.1
    obtain ⟨log₂, ⟨g, rest'⟩, hg, hp⟩ := Traced.prepend_map_eq_ok h
    rw [hg] at h
    cases hp
    rw [List.cons_append, read_operands_divide, Operand.read, hread, Traced.bind_ok, ih hg]
    simpa [Traced.map, Traced.prepend] using h
  | case5 ts htimes hdivide =>
    cases h
    cases ts with
    | nil =>
      rw [List.nil_append, Grammar.read_operands_end htail]
      rfl
    | cons t ts =>
      rw [List.cons_append, read_operands_stop]
      · rfl
      · rintro us ⟨⟩
        exact htimes ts rfl
      · rintro us ⟨⟩
        exact hdivide ts rfl

theorem read_append {t : Term} (h : read ts = ⟨log, .ok (t, rest)⟩) :
    read (ts ++ tail) = ⟨log, .ok (t, rest ++ tail)⟩ := by
  obtain ⟨o, after, f, _, _, ho, hf, h⟩ := read_ok_iff.mp h
  exact read_ok_iff.mpr ⟨o, after ++ tail, f, _, _, Operand.read_tower_append ho htail.1,
    read_operands_append htail hf, h⟩

end Term

/-! ## Two sides -/

namespace SideReading

/-- One reading and another one behind it. -/
def followedBy (r s : SideReading) : SideReading := ⟨r.terms ++ s.terms, r.log ++ s.log, s.failure?⟩

theorem cons_followed_by (t : Term) (log : List Record) (r s : SideReading) :
    (cons t log r).followedBy s = cons t log (r.followedBy s) := by
  simp [followedBy, cons]

theorem read_terms_join {side sign : Float} {u v : List Token} (g : Grammar.Sign)
    (h : (readTerms side sign u).failure? = none) :
    readTerms side sign (u ++ g.token :: v) =
      (readTerms side sign u).followedBy (readTerms side (g.apply side) v) := by
  have hends := Grammar.sign_ends g v
  fun_induction readTerms side sign u with
  | case1 => cases h
  | case2 sign u log t hread =>
    rw [read_terms_sign (Term.read_append hends hread), cons_followed_by]
    rfl
  | case3 sign u log t rest hread _ ih =>
    rw [read_terms_plus (Term.read_append hends hread), cons_followed_by]
    exact congrArg (cons (t.scale sign) log) (ih h)
  | case4 sign u log t rest hread _ ih =>
    rw [read_terms_minus (Term.read_append hends hread), cons_followed_by]
    exact congrArg (cons (t.scale sign) log) (ih h)
  | case5 => cases h

/-- The same terms, but the first of them with the opposite coefficient. -/
def turnFirst (r : SideReading) : SideReading := { r with terms := r.terms.modifyHead Term.negate }

/-- What comes of a reading in the table depends on its terms and on its failure. -/
structure Alike (r s : SideReading) : Prop where
  terms : r.terms = s.terms
  failure : r.failure? = s.failure?

variable {r s : SideReading} {side sign : Float} {u v : List Token}

theorem Alike.leaves (h : Alike r s) (table : Table) : r.leaves table = s.leaves table := by
  rw [SideReading.leaves, SideReading.leaves, h.terms]

theorem Alike.result_add_to (h : Alike r s) (table : Table) :
    (r.addTo table).result = (s.addTo table).result := by
  rw [SideReading.result_add_to, SideReading.result_add_to, h.terms, h.failure]

/-- Only the first term enters with the sign before it. -/
theorem read_terms_turn (side sign : Float) (ts : List Token) :
    Alike (readTerms side (-sign) ts) (readTerms side sign ts).turnFirst := by
  fun_cases readTerms side sign ts with
  | case1 log e h =>
    rw [read_terms_error h]
    exact ⟨rfl, rfl⟩
  | case2 log t h =>
    rw [read_terms_last h, Term.scale_neg]
    exact ⟨rfl, rfl⟩
  | case3 log t rest h =>
    rw [read_terms_plus h, Term.scale_neg]
    exact ⟨rfl, rfl⟩
  | case4 log t rest h =>
    rw [read_terms_minus h, Term.scale_neg]
    exact ⟨rfl, rfl⟩
  | case5 log t found rest h hp hm =>
    rw [read_terms_other h hp hm, Term.scale_neg]
    exact ⟨rfl, rfl⟩

theorem alike_read (h : u ≠ []) : Alike (read sign u) (readTerms sign sign u) := by
  cases u with
  | nil => exact absurd rfl h
  | cons t ts => exact ⟨rfl, rfl⟩

theorem Alike.symm (h : Alike r s) : Alike s r := ⟨h.terms.symm, h.failure.symm⟩

theorem Alike.trans {q : SideReading} (h : Alike q r) (h' : Alike r s) : Alike q s :=
  ⟨h.terms.trans h'.terms, h.failure.trans h'.failure⟩

theorem Alike.turn_first (h : Alike r s) : Alike r.turnFirst s.turnFirst :=
  ⟨congrArg (List.modifyHead Term.negate) h.terms, h.failure⟩

theorem leaves_followed_by (r s : SideReading) (table : Table) :
    (r.followedBy s).leaves table = s.leaves (r.leaves table) := List.foldl_append

theorem result_followed_by (r s : SideReading) (table : Table) :
    ((r.followedBy s).addTo table).result = (s.addTo (r.leaves table)).result := by
  rw [result_add_to, result_add_to, leaves, followedBy, Table.addAll, List.foldl_append]
  rfl

theorem add_to_eq_ok {table table₁ : Table} (h : (r.addTo table).result = .ok table₁) :
    r.failure? = none ∧ r.leaves table = table₁ := by
  rw [result_add_to] at h
  split at h
  · cases h
  · rename_i hnone
    exact ⟨hnone, Except.ok.inj h⟩

/-- A side that was read to its end, a sign and another side: what comes of them is what comes of the
second side with the sign before its first term. -/
theorem read_join {table table₁ : Table} (g : Grammar.Sign)
    (hu : ((read sign u).addTo table).result = .ok table₁) :
    ((read sign (u ++ g.token :: v)).addTo table).result =
        ((readTerms sign (g.apply sign) v).addTo table₁).result ∧
      (read sign (u ++ g.token :: v)).leaves table = (readTerms sign (g.apply sign) v).leaves table₁ := by
  have hne : u ≠ [] := by
    rintro rfl
    cases hu
  have hjoin : u ++ g.token :: v ≠ [] := List.append_ne_nil_of_left_ne_nil hne _
  rw [(alike_read hne).result_add_to] at hu
  obtain ⟨hnone, hleaves⟩ := add_to_eq_ok hu
  rw [(alike_read hjoin).result_add_to, (alike_read hjoin).leaves, read_terms_join g hnone,
    result_followed_by, leaves_followed_by, hleaves]
  exact ⟨rfl, rfl⟩

/-- Sides compose. Behind a side that was read to its end and a `+`, another one gives the result and
leaves the table that it gives and leaves alone, from the table of the first; behind a `-` its first term
turns, and nothing else. -/
theorem sides_compose {table table₁ : Table} (hu : ((read sign u).addTo table).result = .ok table₁)
    (hv : v ≠ []) :
    (((read sign (u ++ .plus :: v)).addTo table).result = ((read sign v).addTo table₁).result ∧
      (read sign (u ++ .plus :: v)).leaves table = (read sign v).leaves table₁) ∧
    ((read sign (u ++ .minus :: v)).addTo table).result = ((read sign v).turnFirst.addTo table₁).result ∧
      (read sign (u ++ .minus :: v)).leaves table = (read sign v).turnFirst.leaves table₁ := by
  have hplus : Alike (readTerms sign sign v) (read sign v) := (alike_read hv).symm
  have hminus : Alike (readTerms sign (-sign) v) (read sign v).turnFirst :=
    (read_terms_turn sign sign v).trans (alike_read hv).turn_first.symm
  obtain ⟨hresult, hleaves⟩ := read_join (v := v) .plus hu
  obtain ⟨hresult', hleaves'⟩ := read_join (v := v) .minus hu
  exact ⟨⟨hresult.trans (hplus.result_add_to table₁), hleaves.trans (hplus.leaves table₁)⟩,
    hresult'.trans (hminus.result_add_to table₁), hleaves'.trans (hminus.leaves table₁)⟩

/-- `2 - X`. -/
def sampleSide : List Token := [.number 2.0 "2", .minus, .unknown]

/-- `5 - 1`. -/
def secondSide : List Token := [.number 5.0 "5", .minus, .number 1.0 "1"]

/-- `X + 3 / 0`. -/
def failingSide : List Token := .unknown :: .plus :: Grammar.zeroDivisor

/-- `2 - X - 5 - 1` has two turned terms, and `2 - X + X + 3 / 0` leaves three. -/
theorem sides_compose_samples :
    ((read 1.0 sampleSide).addTo {}).result = .ok ⟨[⟨2.0, .number 0.0⟩, ⟨-1.0, .number 1.0⟩]⟩ ∧
    ((read 1.0 (sampleSide ++ .minus :: secondSide)).addTo {}).result =
      .ok ⟨[⟨-4.0, .number 0.0⟩, ⟨-1.0, .number 1.0⟩]⟩ ∧
    ((read 1.0 (sampleSide ++ .plus :: failingSide)).addTo {}).result =
      .error (.zeroDivision (.denominator 0.0)) ∧
    (read 1.0 (sampleSide ++ .plus :: failingSide)).leaves {} =
      ⟨[⟨2.0, .number 0.0⟩, ⟨0.0, .number 1.0⟩]⟩ := by
  have hfirst : ((read 1.0 sampleSide).addTo {}).result =
      .ok ⟨[⟨2.0, .number 0.0⟩, ⟨-1.0, .number 1.0⟩]⟩ := by decide +kernel
  have hminus := (sides_compose hfirst (v := secondSide) nofun).2.1
  obtain ⟨hresult, hleaves⟩ := (sides_compose hfirst (v := failingSide) nofun).1
  exact ⟨hfirst, hminus.trans (by decide +kernel), hresult.trans (by decide +kernel),
    hleaves.trans (by decide +kernel)⟩

end SideReading

end Trinomial
