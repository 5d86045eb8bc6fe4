import Trinomial.Tower

/-! # Sides of an equation

A side is a sequence of terms, and a term a sequence of operands. A sign that follows a term joins the
next one; anywhere else a sign belongs to the number after it. A side that fails has still contributed
the terms before the failure.

    side → term (('+' | '-') term)*
    term → operand (('*' | '/') operand)*
-/
set_option autoImplicit false

namespace Trinomial

/-! ## Terms -/

namespace Term

/-- The operands that follow in a term, as a fraction, and the tokens after them. -/
def readOperands (ts : List Token) : Traced (Fraction × List Token) :=
  match ts with
  | .times :: rest =>
    match h : Operand.read rest with
    | ⟨log, .error e⟩ => ⟨log, .error e⟩
    | ⟨log, .ok (o, after)⟩ =>
      have : after.length < rest.length := Operand.read_tower_length h
      ((readOperands after).map fun p => (p.1.consAbove o, p.2)).prepend log
  | .divide :: rest =>
    match h : Operand.read rest with
    | ⟨log, .error e⟩ => ⟨log, .error e⟩
    | ⟨log, .ok (o, after)⟩ =>
      have : after.length < rest.length := Operand.read_tower_length h
      ((readOperands after).map fun p => (p.1.consBelow o, p.2)).prepend log
  | ts => pure (⟨[], []⟩, ts)
termination_by ts.length

def read (ts : List Token) : Traced (Term × List Token) := do
  let (first, rest) ← Operand.read ts
  let (others, rest) ← readOperands rest
  return (← Traced.ofResult (others.consAbove first).reduce, rest)

theorem read_operands_times (rest : List Token) :
    readOperands (.times :: rest) = Operand.read rest >>= fun p =>
      (readOperands p.2).map fun q => (q.1.consAbove p.1, q.2) := by
  rw [readOperands]
  split
  · next h => simp only [h, Traced.bind_error]
  · next h => simp only [h, Traced.bind_ok, Traced.prepend]

theorem read_operands_divide (rest : List Token) :
    readOperands (.divide :: rest) = Operand.read rest >>= fun p =>
      (readOperands p.2).map fun q => (q.1.consBelow p.1, q.2) := by
  rw [readOperands]
  split
  · next h => simp only [h, Traced.bind_error]
  · next h => simp only [h, Traced.bind_ok, Traced.prepend]

theorem read_operands_stop {ts : List Token} (h : ∀ rest, ts ≠ .times :: rest)
    (h' : ∀ rest, ts ≠ .divide :: rest) : readOperands ts = pure (⟨[], []⟩, ts) := by
  rw [readOperands]
  · exact h
  · exact h'

theorem read_operands_length {ts : List Token} {log : List Record} {f : Fraction}
    {rest : List Token} (h : readOperands ts = ⟨log, .ok (f, rest)⟩) : rest.length ≤ ts.length := by
  fun_induction readOperands ts generalizing log f rest with
  | case1 => simp at h
  | case2 rest₁ log₁ o after h₁ hlt ih =>
    obtain ⟨log₂, p, hp, hf⟩ := Traced.prepend_map_eq_ok h
    obtain ⟨_, rfl⟩ := Prod.mk.inj hf
    have := ih hp
    simp only [List.length_cons]
    omega
  | case3 => simp at h
  | case4 rest₁ log₁ o after h₁ hlt ih =>
    obtain ⟨log₂, p, hp, hf⟩ := Traced.prepend_map_eq_ok h
    obtain ⟨_, rfl⟩ := Prod.mk.inj hf
    have := ih hp
    simp only [List.length_cons]
    omega
  | case5 =>
    simp at h
    simp [h.2.2]

/-- A term that was read: its first operand, the others and what they reduce to. -/
theorem read_ok_iff {ts : List Token} {log : List Record} {t : Term} {rest : List Token} :
    read ts = ⟨log, .ok (t, rest)⟩ ↔ ∃ first after others log₁ log₂,
      Operand.read ts = ⟨log₁, .ok (first, after)⟩ ∧ readOperands after = ⟨log₂, .ok (others, rest)⟩ ∧
        (others.consAbove first).reduce = .ok t ∧ log = log₁ ++ log₂ := by
  constructor
  · intro h
    obtain ⟨log₁, ⟨first, after⟩, _, hfirst, h₁, rfl⟩ := Traced.bind_ok_iff.mp h
    obtain ⟨log₂, ⟨others, rest⟩, _, hothers, h₂, rfl⟩ := Traced.bind_ok_iff.mp h₁
    obtain ⟨_, t, _, hreduce, h₃, rfl⟩ := Traced.bind_ok_iff.mp h₂
    obtain ⟨rfl, hterm⟩ := Traced.mk.inj hreduce
    cases h₃
    exact ⟨first, after, others, log₁, log₂, hfirst, hothers, hterm, by simp⟩
  · rintro ⟨first, after, others, log₁, log₂, hfirst, hothers, hterm, rfl⟩
    simp [read, hfirst, hothers, hterm, Traced.ofResult]

theorem read_length {ts : List Token} {log : List Record} {t : Term} {rest : List Token}
    (h : read ts = ⟨log, .ok (t, rest)⟩) : rest.length < ts.length := by
  obtain ⟨first, after, others, log₁, log₂, hfirst, hothers, -⟩ := read_ok_iff.mp h
  exact Nat.lt_of_le_of_lt (read_operands_length hothers) (Operand.read_tower_length hfirst)

end Term

/-! ## Sides -/

/-- What the reading of a side came to: the terms in order, with their signs, what was noted, and why
the reading stopped before the end. -/
structure SideReading where
  terms : List Term
  log : List Record
  failure? : Option Failure

namespace SideReading

def stop (log : List Record) (e : Failure) : SideReading := ⟨[], log, some e⟩

def cons (t : Term) (log : List Record) (r : SideReading) : SideReading :=
  ⟨t :: r.terms, log ++ .term t :: r.log, r.failure?⟩

/-- The table as a side leaves it. Terms are added as they are read, so those before a failure are in it. -/
def leaves (r : SideReading) (table : Table) : Table := table.addAll r.terms

/-- The table after a side that was read to its end. -/
def addTo (r : SideReading) (table : Table) : Traced Table :=
  ⟨r.log, match r.failure? with
    | some e => .error e
    | none => .ok (table.addAll r.terms)⟩

/-- Reads terms to the end. The first one enters with `sign`, the others with `side` or its opposite,
as the sign before them says. -/
def readTerms (side sign : Float) (ts : List Token) : SideReading :=
  match h : Term.read ts with
  | ⟨log, .error e⟩ => stop log e
  | ⟨log, .ok (t, [])⟩ => cons (t.scale sign) log ⟨[], [], none⟩
  | ⟨log, .ok (t, .plus :: rest)⟩ =>
    have : rest.length < ts.length := Nat.lt_of_succ_lt (Term.read_length h)
    cons (t.scale sign) log (readTerms side side rest)
  | ⟨log, .ok (t, .minus :: rest)⟩ =>
    have : rest.length < ts.length := Nat.lt_of_succ_lt (Term.read_length h)
    cons (t.scale sign) log (readTerms side (-side) rest)
  | ⟨log, .ok (t, found :: _)⟩ =>
    cons (t.scale sign) log (stop [] (.malformed (.afterTerm found)))
termination_by ts.length

theorem read_terms_error {side sign : Float} {ts : List Token} {log : List Record}
    {e : Failure} (h : Term.read ts = ⟨log, .error e⟩) : readTerms side sign ts = stop log e := by
  rw [readTerms]
  split <;> simp_all

theorem read_terms_last {side sign : Float} {ts : List Token} {log : List Record}
    {t : Term} (h : Term.read ts = ⟨log, .ok (t, [])⟩) :
    readTerms side sign ts = cons (t.scale sign) log ⟨[], [], none⟩ := by
  rw [readTerms]
  split <;> simp_all

theorem read_terms_plus {side sign : Float} {ts rest : List Token} {log : List Record}
    {t : Term} (h : Term.read ts = ⟨log, .ok (t, .plus :: rest)⟩) :
    readTerms side sign ts = cons (t.scale sign) log (readTerms side side rest) := by
  rw [readTerms]
  split <;> simp_all

theorem read_terms_minus {side sign : Float} {ts rest : List Token} {log : List Record}
    {t : Term} (h : Term.read ts = ⟨log, .ok (t, .minus :: rest)⟩) :
    readTerms side sign ts = cons (t.scale sign) log (readTerms side (-side) rest) := by
  rw [readTerms]
  split <;> simp_all

theorem read_terms_other {side sign : Float} {ts rest : List Token} {log : List Record}
    {t : Term} {found : Token} (hp : found ≠ .plus) (hm : found ≠ .minus)
    (h : Term.read ts = ⟨log, .ok (t, found :: rest)⟩) :
    readTerms side sign ts =
      cons (t.scale sign) log (stop [] (.malformed (.afterTerm found))) := by
  rw [readTerms]
  split <;> simp_all

/-- Reads a side whose terms count with `sign`. -/
def read (sign : Float) (ts : List Token) : SideReading :=
  if ts.isEmpty then stop [.side sign ts] (.malformed .emptySide)
  else
    let r := readTerms sign sign ts
    { r with log := .side sign ts :: r.log }

end SideReading
end Trinomial
