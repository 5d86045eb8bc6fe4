import Trinomial.Fraction
import Trinomial.Power

/-! # Exponent towers

An operand is an atom, possibly raised to another operand. Towers are read from left to right and
computed from right to left; their height is bounded, and the unknown stands only at the base.

    operand → atom ('^' operand)?
    atom    → ('+' | '-')? number | X
-/
set_option autoImplicit false

namespace Trinomial

/-! ## Atoms -/

/-- What a tower of exponents is built from. -/
inductive Atom where
  | number (value : Float)
  | unknown
deriving DecidableEq

namespace Atom

def readSigned (sign : Token) (f : Float → Float) :
    List Token → Except Failure (Atom × List Token)
  | .number v _ :: ts => .ok (number (f v), ts)
  | t :: _ => .error (.malformed (.signWithoutNumber sign (some t)))
  | [] => .error (.malformed (.signWithoutNumber sign none))

def read : List Token → Except Failure (Atom × List Token)
  | .unknown :: ts => .ok (unknown, ts)
  | .number v _ :: ts => .ok (number v, ts)
  | .plus :: ts => readSigned .plus id ts
  | .minus :: ts => readSigned .minus Neg.neg ts
  | t :: _ => .error (.malformed (.operandExpected t))
  | [] => .error (.malformed .unfinishedTerm)

def alone : Atom → Operand
  | number v => .literal v
  | unknown => .unknownPower 1.0

/-- An atom with its exponent: the unknown takes any, a number is raised to it. -/
def raised : Atom → Float → Traced Operand
  | unknown, e => pure (.unknownPower e)
  | number v, e => do return .literal (← Number.power v e)

theorem raised_eq_error {base : Atom} {exponent : Float} {e : Failure} :
    (base.raised exponent).result = .error e ↔
      ∃ v, base = number v ∧ (Number.power v exponent).result = .error e := by
  cases base with
  | unknown => simp [raised]
  | number v => simp [raised, bind_eq_error]

theorem read_signed_length {sign : Token} {f : Float → Float} {ts : List Token} {a : Atom}
    {rest : List Token} (h : readSigned sign f ts = .ok (a, rest)) : rest.length < ts.length := by
  unfold readSigned at h
  split at h
  · cases h
    exact Nat.lt_succ_self _
  · cases h
  · cases h

theorem read_length {ts : List Token} {a : Atom} {rest : List Token}
    (h : read ts = .ok (a, rest)) : rest.length < ts.length := by
  unfold read at h
  split at h
  · cases h
    exact Nat.lt_succ_self _
  · cases h
    exact Nat.lt_succ_self _
  · exact Nat.lt_succ_of_lt (read_signed_length h)
  · exact Nat.lt_succ_of_lt (read_signed_length h)
  · cases h
  · cases h

end Atom

/-! ## Operands -/

namespace Operand

def asExponent : Operand → Except Failure Float
  | literal e => .ok e
  | unknownPower _ => .error (.malformed .unknownInExponent)

/-- A tower of at most `levels` atoms and the tokens after it. -/
def readTower : (levels : Nat) → List Token → Traced (Operand × List Token)
  | 0, _ => .fail (.malformed .tallTower)
  | levels + 1, ts => do
    let (base, rest) ← Traced.ofResult (Atom.read ts)
    match rest with
    | .caret :: rest => do
      let (top, rest) ← readTower levels rest
      let exponent ← Traced.ofResult top.asExponent
      return (← base.raised exponent, rest)
    | _ => return (base.alone, rest)

def read (ts : List Token) : Traced (Operand × List Token) := readTower towerLimit ts

section Levels
variable {levels : Nat} {ts rest : List Token} {base : Atom}

theorem read_tower_power (h : Atom.read ts = .ok (base, .caret :: rest)) :
    readTower (levels + 1) ts = readTower levels rest >>= fun p => do
      let exponent ← Traced.ofResult p.1.asExponent
      return (← base.raised exponent, p.2) := by
  rw [readTower, h]
  rfl

theorem read_tower_alone (h : Atom.read ts = .ok (base, rest)) (hrest : rest.head? ≠ some .caret) :
    readTower (levels + 1) ts = ⟨[], .ok (base.alone, rest)⟩ := by
  simp only [readTower, h, Traced.ofResult, Traced.bind_ok]
  split
  · exact absurd rfl hrest
  · rfl

/-- A tower that was read: an atom alone, or an atom and the tower that is its exponent. -/
theorem read_tower_ok_iff {log : List Record} {o : Operand} :
    readTower (levels + 1) ts = ⟨log, .ok (o, rest)⟩ ↔
      (∃ base, Atom.read ts = .ok (base, rest) ∧ rest.head? ≠ some .caret ∧ o = base.alone ∧ log = []) ∨
      ∃ base inner top exponent log₁ log₂, Atom.read ts = .ok (base, .caret :: inner) ∧
        readTower levels inner = ⟨log₁, .ok (top, rest)⟩ ∧ top.asExponent = .ok exponent ∧
        base.raised exponent = ⟨log₂, .ok o⟩ ∧ log = log₁ ++ log₂ := by
  constructor
  · intro h
    cases ha : Atom.read ts with
    | error e => simp [readTower, ha, Traced.ofResult] at h
    | ok p =>
      obtain ⟨base, after⟩ := p
      by_cases hcaret : after.head? = some .caret
      · obtain ⟨inner, rfl⟩ := List.head?_eq_some_iff.mp hcaret
        rw [read_tower_power ha] at h
        obtain ⟨log₁, ⟨top, after⟩, _, htop, h₁, rfl⟩ := Traced.bind_ok_iff.mp h
        obtain ⟨_, exponent, _, he, h₂, rfl⟩ := Traced.bind_ok_iff.mp h₁
        obtain ⟨log₂, o', _, ho, h₃, rfl⟩ := Traced.bind_ok_iff.mp h₂
        obtain ⟨rfl, hexponent⟩ := Traced.mk.inj he
        cases h₃
        exact .inr ⟨base, inner, top, exponent, log₁, log₂, rfl, htop, hexponent, ho, by simp⟩
      · rw [read_tower_alone ha hcaret] at h
        cases h
        exact .inl ⟨base, rfl, hcaret, rfl, rfl⟩
  · rintro (⟨base, hread, hcaret, rfl, rfl⟩ |
      ⟨base, inner, top, exponent, log₁, log₂, hread, htop, he, ho, rfl⟩)
    · exact read_tower_alone hread hcaret
    · rw [read_tower_power hread]
      simp [htop, he, ho, Traced.ofResult]

/-- A tower that fails: at its first atom, in the exponent, or with what is done with the exponent. -/
theorem read_tower_error_iff {e : Failure} : (readTower (levels + 1) ts).result = .error e ↔
    Atom.read ts = .error e ∨
    ∃ base inner, Atom.read ts = .ok (base, .caret :: inner) ∧
      ((readTower levels inner).result = .error e ∨
        ∃ top rest, (readTower levels inner).result = .ok (top, rest) ∧
          (top.asExponent = .error e ∨
            ∃ exponent, top.asExponent = .ok exponent ∧ (base.raised exponent).result = .error e)) := by
  cases ha : Atom.read ts with
  | error f => simp [readTower, ha]
  | ok p =>
    obtain ⟨base, after⟩ := p
    by_cases hcaret : after.head? = some .caret
    · obtain ⟨inner, rfl⟩ := List.head?_eq_some_iff.mp hcaret
      simp [read_tower_power ha, bind_eq_error, and_assoc]
    · rw [read_tower_alone ha hcaret]
      constructor
      · nofun
      · rintro (h | ⟨_, inner, h, -⟩)
        · cases h
        · cases h
          exact absurd rfl hcaret

end Levels

theorem read_tower_length {levels : Nat} {ts : List Token} {log : List Record} {o : Operand}
    {rest : List Token} (h : readTower levels ts = ⟨log, .ok (o, rest)⟩) :
    rest.length < ts.length := by
  induction levels generalizing ts log o rest with
  | zero => cases h
  | succ levels ih =>
    obtain ⟨base, hread, -⟩ | ⟨base, inner, top, exponent, log₁, log₂, hread, htop, -⟩ :=
      read_tower_ok_iff.mp h
    · exact Atom.read_length hread
    · have hinner := Atom.read_length hread
      rw [List.length_cons] at hinner
      exact Nat.lt_trans (ih htop) (Nat.lt_of_succ_lt hinner)

end Operand

end Trinomial
