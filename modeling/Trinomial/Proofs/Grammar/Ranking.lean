import Mathlib.Tactic.Common
import Trinomial.Proofs.Grammar.Equations

/-! # Faults of exponent towers

Towers are read from the base up and computed from the top down. So their height is refused before
anything in them is computed, and of the faults inside a tower the one nearest to its top is found: a power
without a result, or the unknown in an exponent.
-/
set_option autoImplicit false

namespace Trinomial.Grammar

/-! ## Height -/

section Height
variable {rest : List Token}

/-- A tower with one atom for each level, and a `^` behind it, is refused unseen. -/
theorem read_tower_tall (t : TowerTree) :
    Operand.readTower t.atoms.length (t.tokens ++ .caret :: rest) = .fail (.malformed .tallTower) := by
  induction t with
  | atom a =>
    have hread := read_atom_tokens a (.caret :: rest)
    rw [TowerTree.tokens, TowerTree.atoms, List.length_singleton, Operand.read_tower_power hread]
    rfl
  | power base exponent ih =>
    have hread := read_atom_tokens base (.caret :: (exponent.tokens ++ .caret :: rest))
    rw [TowerTree.tokens, TowerTree.atoms, List.length_cons, List.append_assoc, List.cons_append,
      Operand.read_tower_power hread, ih]
    rfl

end Height

/-! ## Numbers raised to numbers -/

/-- The number of an atom that is one. -/
def AtomTree.number? : AtomTree → Option Float
  | number none v _ => some v
  | number (some s) v _ => some (s.apply v)
  | unknown => none

def numbers (as : List AtomTree) : List Float := as.filterMap AtomTree.number?

/-- Numbers raised to each other from right to left; the exponent that is not written is `1.0`. -/
def powers : List Float → Except Failure Float
  | [] => .ok 1.0
  | [v] => .ok v
  | v :: w :: vs => do
    let e ← powers (w :: vs)
    (Number.power v e).result

theorem powers_cons {v : Float} {vs : List Float} (h : vs ≠ []) :
    powers (v :: vs) = powers vs >>= fun e => (Number.power v e).result := by
  cases vs with
  | nil => exact absurd rfl h
  | cons w vs => rfl

/-- Powers fail by the rightmost one of them without a result: all that are right of it have one. -/
theorem powers_error_iff {vs : List Float} {e : Failure} :
    powers vs = .error e ↔ ∃ left base right v, vs = left ++ base :: right ∧ right ≠ [] ∧
      powers right = .ok v ∧ (Number.power base v).result = .error e := by
  induction vs with
  | nil => simp [powers]
  | cons v vs ih =>
    by_cases hvs : vs = []
    · subst hvs
      constructor
      · nofun
      · rintro ⟨left, base, right, w, hv, hright, -⟩
        have hlength := congrArg List.length hv
        simp only [List.length_append, List.length_cons, List.length_nil] at hlength
        exact absurd (List.length_eq_zero_iff.mp (by omega)) hright
    rw [powers_cons hvs, bind_eq_error, ih]
    constructor
    · rintro (⟨left, base, right, w, rfl, h⟩ | ⟨w, hw, h⟩)
      · exact ⟨v :: left, base, right, w, rfl, h⟩
      · exact ⟨[], v, vs, w, rfl, hvs, hw, h⟩
    · rintro ⟨left, base, right, w, hv, hright, hw, h⟩
      cases left with
      | nil =>
        obtain ⟨rfl, rfl⟩ := List.cons.inj hv
        exact .inr ⟨w, hw, h⟩
      | cons u left =>
        obtain ⟨rfl, rfl⟩ := List.cons.inj hv
        exact .inl ⟨left, base, right, w, rfl, hright, hw, h⟩

theorem powers_error {vs : List Float} {e : Failure} (h : powers vs = .error e) : e.IsNumeric := by
  obtain ⟨_, _, _, _, _, _, _, hpower⟩ := powers_error_iff.mp h
  exact power_error hpower

/-! ## Towers of numbers -/

theorem tower_atoms_ne_nil (t : TowerTree) : t.atoms ≠ [] := by
  cases t <;> exact List.cons_ne_nil _ _

theorem number_of_atom {a : AtomTree} (h : a ≠ .unknown) :
    ∃ v, a.number? = some v ∧ a.value = .ok v := by
  cases a with
  | unknown => exact absurd rfl h
  | number s v spelling =>
    cases s with
    | none => exact ⟨v, rfl, rfl⟩
    | some s => exact ⟨s.apply v, rfl, rfl⟩

theorem numbers_ne_nil {t : TowerTree} (h : .unknown ∉ t.atoms) : numbers t.atoms ≠ [] := by
  obtain ⟨a, as, has⟩ := List.exists_cons_of_ne_nil (tower_atoms_ne_nil t)
  rw [has] at h ⊢
  obtain ⟨v, hv, -⟩ := number_of_atom fun ha => h (ha ▸ List.mem_cons_self)
  rw [numbers, List.filterMap_cons_some hv]
  exact List.cons_ne_nil _ _

/-- A tower of numbers is computed from right to left. -/
theorem tower_value_numbers {t : TowerTree} (h : .unknown ∉ t.atoms) :
    t.value = powers (numbers t.atoms) := by
  induction t with
  | atom a =>
    obtain ⟨v, hv, hvalue⟩ := number_of_atom fun ha => h (ha ▸ List.mem_cons_self)
    rw [TowerTree.value, hvalue, TowerTree.atoms, numbers, List.filterMap_cons_some hv]
    rfl
  | power base exponent ih =>
    rw [TowerTree.atoms, List.mem_cons, not_or] at h
    obtain ⟨v, hv, hvalue⟩ := number_of_atom (Ne.symm h.1)
    have hnumbers : numbers (base :: exponent.atoms) = v :: numbers exponent.atoms :=
      List.filterMap_cons_some hv
    rw [TowerTree.value, ih h.2, hvalue, TowerTree.atoms, hnumbers, powers_cons (numbers_ne_nil h.2)]
    rfl

/-- Below an unknown there is no number: what is right of it is computed first, and then it is refused. -/
theorem tower_value_unknown {t : TowerTree} {left right : List AtomTree}
    (h : t.atoms = left ++ .unknown :: right) (hright : .unknown ∉ right) :
    t.value = powers (numbers right) >>= fun _ => .error (.malformed .unknownInExponent) := by
  induction t generalizing left with
  | atom a =>
    cases left with
    | nil =>
      obtain ⟨rfl, rfl⟩ := List.cons.inj h
      rfl
    | cons b left =>
      obtain ⟨-, hatoms⟩ := List.cons.inj h
      simp at hatoms
  | power base exponent ih =>
    cases left with
    | nil =>
      obtain ⟨rfl, rfl⟩ := List.cons.inj h
      rw [TowerTree.value, tower_value_numbers hright]
      rfl
    | cons b left =>
      obtain ⟨rfl, hatoms⟩ := List.cons.inj h
      rw [TowerTree.value, ih hatoms]
      cases powers (numbers right) <;> rfl

/-! ## Towers as operands -/

section Operands
variable {t : TowerTree} {left right exponents : List AtomTree}

theorem operand_of_numbers (h : .unknown ∉ t.atoms) :
    t.operand = (powers (numbers t.atoms)).map .literal := by
  rw [← tower_value_numbers h]
  cases t with
  | atom a =>
    cases a with
    | unknown => exact absurd List.mem_cons_self h
    | number s v spelling => rfl
  | power base exponent =>
    cases base with
    | unknown => exact absurd List.mem_cons_self h
    | number s v spelling => rfl

theorem operand_of_base (h : t.atoms = .unknown :: exponents) (hexponents : .unknown ∉ exponents) :
    t.operand = (powers (numbers exponents)).map .unknownPower := by
  cases t with
  | atom a =>
    obtain ⟨rfl, rfl⟩ := List.cons.inj h
    rfl
  | power base exponent =>
    obtain ⟨rfl, rfl⟩ := List.cons.inj h
    rw [TowerTree.operand, tower_value_numbers hexponents]

theorem operand_of_unknown (h : t.atoms = left ++ .unknown :: right) (hleft : left ≠ [])
    (hright : .unknown ∉ right) :
    t.operand = powers (numbers right) >>= fun _ => .error (.malformed .unknownInExponent) := by
  have hvalue := tower_value_unknown h hright
  obtain ⟨b, left, rfl⟩ := List.exists_cons_of_ne_nil hleft
  cases t with
  | atom a =>
    obtain ⟨-, hatoms⟩ := List.cons.inj h
    simp at hatoms
  | power base exponent =>
    obtain ⟨rfl, hatoms⟩ := List.cons.inj h
    cases base with
    | unknown =>
      rw [TowerTree.operand, tower_value_unknown hatoms hright]
      cases powers (numbers right) <;> rfl
    | number s v spelling =>
      rw [TowerTree.operand, hvalue]
      · cases powers (numbers right) <;> rfl
      · rintro ⟨⟩
      · rintro _ ⟨⟩

end Operands

/-! ## Nested calls -/

/-- A call of the reader of towers: the levels that are left to it, and its tokens. -/
structure TowerCall where
  levels : ℕ
  tokens : List Token

/-- The call that a call makes: behind an atom and a `^` the exponent is read, on the level above. -/
def TowerCall.nested : TowerCall → Option TowerCall
  | ⟨0, _⟩ => none
  | ⟨levels + 1, ts⟩ =>
    match Atom.read ts with
    | .ok (_, .caret :: rest) => some ⟨levels, rest⟩
    | _ => none

/-- The calls from a call on, each made by the one before it; the last one makes none. -/
inductive TowerTrail : TowerCall → List TowerCall → Prop where
  | last {c : TowerCall} (h : c.nested = none) : TowerTrail c [c]
  | next {c inner : TowerCall} {cs : List TowerCall} (h : c.nested = some inner)
      (htrail : TowerTrail inner cs) : TowerTrail c (c :: cs)

theorem atom_error_ne_tall {ts : List Token} : Atom.read ts ≠ .error (.malformed .tallTower) := by
  have hsigned {sign : Token} {f : Float → Float} {us : List Token} :
      Atom.readSigned sign f us ≠ .error (.malformed .tallTower) := by
    unfold Atom.readSigned
    split <;> nofun
  unfold Atom.read
  split
  · nofun
  · nofun
  · exact hsigned
  · exact hsigned
  · nofun
  · nofun

/-- What is done with the operand of an exponent does not fail for height. -/
theorem exponent_error_ne_tall {top : Operand} : top.asExponent ≠ .error (.malformed .tallTower) := by
  cases top <;> nofun

theorem raised_error_ne_tall {base : Atom} {exponent : Float} :
    (base.raised exponent).result ≠ .error (.malformed .tallTower) := by
  intro h
  obtain ⟨v, -, hpower⟩ := Atom.raised_eq_error.mp h
  exact power_error hpower

/-- A tower is too tall for its reader if its exponent is. -/
theorem tall_tower_iff {levels : ℕ} {ts : List Token} :
    (Operand.readTower (levels + 1) ts).result = .error (.malformed .tallTower) ↔
      ∃ base inner, Atom.read ts = .ok (base, .caret :: inner) ∧
        (Operand.readTower levels inner).result = .error (.malformed .tallTower) := by
  rw [Operand.read_tower_error_iff]
  simp [atom_error_ne_tall, exponent_error_ne_tall, raised_error_ne_tall]

/-- A tower that may have `limit` atoms is read with at most one call more than that. The reader needs as
many levels as it makes calls: with fewer of them it refuses the tower for its height. -/
theorem exists_tower_trail (limit : ℕ) (ts : List Token) : ∃ calls, TowerTrail ⟨limit, ts⟩ calls ∧
    calls.length ≤ limit + 1 ∧ ∀ levels ≤ limit, (Operand.readTower levels ts).result =
      .error (.malformed .tallTower) ↔ levels < calls.length := by
  induction limit generalizing ts with
  | zero =>
    refine ⟨_, .last rfl, Nat.le_refl 1, fun levels hle => ?_⟩
    obtain rfl := Nat.le_zero.mp hle
    exact iff_of_true rfl Nat.one_pos
  | succ limit ih =>
    cases hread : Atom.read ts with
    | error e =>
      have hlast : TowerCall.nested ⟨limit + 1, ts⟩ = none := by rw [TowerCall.nested, hread]
      refine ⟨_, .last hlast, Nat.le_add_left _ _, fun levels _ => ?_⟩
      cases levels with
      | zero => exact iff_of_true rfl Nat.one_pos
      | succ levels =>
        rw [tall_tower_iff, hread]
        exact iff_of_false nofun (by simp)
    | ok p =>
      obtain ⟨base, after⟩ := p
      -- only a `^` behind the atom makes another call, and then both counts grow by one
      by_cases hcaret : after.head? = some .caret
      · obtain ⟨rest, rfl⟩ := List.head?_eq_some_iff.mp hcaret
        have hnested : TowerCall.nested ⟨limit + 1, ts⟩ = some ⟨limit, rest⟩ := by
          rw [TowerCall.nested, hread]
        obtain ⟨calls, htrail, hlength, hiff⟩ := ih rest
        refine ⟨_, .next hnested htrail, Nat.succ_le_succ hlength, fun levels hle => ?_⟩
        cases levels with
        | zero => exact iff_of_true rfl (Nat.succ_pos _)
        | succ levels =>
          rw [List.length_cons, Nat.succ_lt_succ_iff, ← hiff levels (Nat.le_of_succ_le_succ hle),
            tall_tower_iff, hread]
          simp
      · have hlast : TowerCall.nested ⟨limit + 1, ts⟩ = none := by
          rw [TowerCall.nested, hread]
          split
          · rename_i heq
            cases heq
            exact absurd rfl hcaret
          · rfl
        refine ⟨_, .last hlast, Nat.le_add_left _ _, fun levels _ => ?_⟩
        cases levels with
        | zero => exact iff_of_true rfl Nat.one_pos
        | succ levels =>
          refine iff_of_false (fun h => ?_) (by simp)
          obtain ⟨_, inner, h, -⟩ := tall_tower_iff.mp h
          rw [hread] at h
          cases h
          exact hcaret rfl

/-! ## What a tower comes to -/

/-- Towers are bounded and their faults ranked. A tower of 256 atoms with a `^` behind it is refused for its
height, whatever its atoms and what comes next. A lower one that ends comes to the power from right to left of
its numbers, on the unknown if that is its base, or fails with the rightmost of these powers that does; an
unknown in an exponent is refused if the powers right of the last one have a result, and they fail before it
otherwise. To read any tokens takes at most 257 nested calls; with a lower limit than there are calls the
tower would be too tall. -/
theorem towers_bounded_and_ranked :
    (∀ (t : TowerTree) rest, t.atoms.length = towerLimit →
      Operand.read (t.tokens ++ .caret :: rest) = .fail (.malformed .tallTower)) ∧
    Misspelling.tallTower.message = "tour d’exposants trop haute (max 256)" ∧
    (∀ (t : TowerTree) rest, t.atoms.length ≤ towerLimit → rest.head? ≠ some .caret →
      (∀ left right, t.atoms = left ++ .unknown :: right → left ≠ [] → .unknown ∉ right →
        (∀ e, powers (numbers right) = .error e → (Operand.read (t.tokens ++ rest)).result = .error e) ∧
        ∀ v, powers (numbers right) = .ok v →
          (Operand.read (t.tokens ++ rest)).result = .error (.malformed .unknownInExponent)) ∧
      (∀ exponents, t.atoms = .unknown :: exponents → .unknown ∉ exponents →
        (Operand.read (t.tokens ++ rest)).result =
          (powers (numbers exponents)).map fun v => (.unknownPower v, rest)) ∧
      (.unknown ∉ t.atoms → (Operand.read (t.tokens ++ rest)).result =
        (powers (numbers t.atoms)).map fun v => (.literal v, rest))) ∧
    (∀ vs e, powers vs = .error e ↔ ∃ left base right v, vs = left ++ base :: right ∧ right ≠ [] ∧
      powers right = .ok v ∧ (Number.power base v).result = .error e) ∧
    (∀ vs e, powers vs = .error e → e.IsNumeric) ∧
    ∀ ts, ∃ calls, TowerTrail ⟨towerLimit, ts⟩ calls ∧ calls.length ≤ 257 ∧
      ∀ levels ≤ towerLimit, (Operand.readTower levels ts).result = .error (.malformed .tallTower) ↔
        levels < calls.length := by
  refine ⟨fun t rest h => ?_, by decide +kernel, fun t rest hlimit hrest => ?_, fun vs e => powers_error_iff,
    fun vs e => powers_error, exists_tower_trail towerLimit⟩
  · rw [Operand.read, ← h, read_tower_tall]
  have hread : (Operand.read (t.tokens ++ rest)).result = t.operand.map (·, rest) :=
    read_tower_tokens t hlimit hrest
  refine ⟨fun left right hatoms hleft hright => ?_, fun exponents hatoms hexponents => ?_,
    fun hnumbers => ?_⟩
  · rw [hread, operand_of_unknown hatoms hleft hright]
    constructor
    · rintro e he
      rw [he]
      rfl
    · rintro v hv
      rw [hv]
      rfl
  · rw [hread, operand_of_base hatoms hexponents]
    cases powers (numbers exponents) <;> rfl
  · rw [hread, operand_of_numbers hnumbers]
    cases powers (numbers t.atoms) <;> rfl

/-- `X^X^...^X` with `n + 1` atoms. -/
def unknownTower : ℕ → TowerTree
  | 0 => .atom .unknown
  | n + 1 => .power .unknown (unknownTower n)

/-- `2^X^0^-1`: the power `0^-1` is computed before the unknown below it is found. -/
def undefinedTop : TowerTree :=
  .power (.number none 2.0 "2") (.power .unknown
    (.power (.number none 0.0 "0") (.atom (.number (some .minus) 1.0 "1"))))

/-- `2^X^3`. -/
def unknownMiddle : TowerTree :=
  .power (.number none 2.0 "2") (.power .unknown (.atom (.number none 3.0 "3")))

/-- `X^2^3`. -/
def unknownBase : TowerTree :=
  .power .unknown (.power (.number none 2.0 "2") (.atom (.number none 3.0 "3")))

theorem towers_bounded_and_ranked_samples :
    (Operand.read ((unknownTower 255).tokens ++ [.caret, .times])).result =
      .error (.malformed .tallTower) ∧
    (Operand.read (undefinedTop.tokens ++ [.times])).result =
      .error (.zeroDivision (.powerOfZero (-1.0))) ∧
    (Operand.read (unknownMiddle.tokens ++ [.times])).result = .error (.malformed .unknownInExponent) ∧
    (Operand.read (unknownBase.tokens ++ [.times])).result = .ok (.unknownPower 8.0, [.times]) := by
  obtain ⟨hheight, -, hfaults, -⟩ := towers_bounded_and_ranked
  have hrest : [Token.times].head? ≠ some .caret := by decide
  refine ⟨?_, ?_, ?_, ?_⟩
  · exact congrArg Traced.result (hheight (unknownTower 255) [.times] (by decide +kernel))
  · exact ((hfaults undefinedTop [.times] (by decide) hrest).1 [.number none 2.0 "2"] _ rfl (by simp)
      (by decide +kernel)).1 _ (by decide +kernel)
  · exact ((hfaults unknownMiddle [.times] (by decide) hrest).1 [.number none 2.0 "2"] _ rfl (by simp)
      (by decide +kernel)).2 3.0 (by decide +kernel)
  · exact ((hfaults unknownBase [.times] (by decide) hrest).2.1 _ rfl (by decide +kernel)).trans
      (by decide +kernel)

end Trinomial.Grammar
