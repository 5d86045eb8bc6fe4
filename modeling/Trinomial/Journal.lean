import Trinomial.Solution
import Trinomial.Table

/-! # The journal of a run

A run that may fail and that notes on its way what it did. The notes are records with a meaning; their
texts come last. What was noted before a failure stays.
-/
set_option autoImplicit false

namespace Trinomial

/-! ## Records -/

inductive Record where
  | side (sign : Float) (tokens : List Token)
  | term (t : Term)
  /-- A power was reduced to a square root. -/
  | fractionalPower (base exponent epsilon : Float)
  | validated (table : Table)
  | solved (a b c : Float) (outcome : Outcome) (roots : List Root)
deriving DecidableEq

inductive Level where
  | debug
  | trace
deriving DecidableEq

namespace Record

def level : Record → Level
  | side .. => .debug
  | term .. => .trace
  | fractionalPower .. => .trace
  | validated .. => .debug
  | solved .. => .debug

def message : Record → String
  | side sign tokens =>
    "membre (signe " ++ Number.plainText sign ++ ") : " ++ Token.listText tokens
  | term t =>
    "terme : " ++ Number.preciseText t.coefficient ++ " * X^" ++ t.degree.preciseText
  | fractionalPower base exponent epsilon =>
    "puissance fractionnaire: base=" ++ Number.preciseText base ++ " exposant=" ++
      Number.preciseText exponent ++ " eps=" ++ Number.scientificText epsilon
  | validated table => "table validée : " ++ table.text
  | solved a b c outcome roots =>
    "résolution a=" ++ Number.preciseText a ++ " b=" ++ Number.preciseText b ++ " c=" ++
      Number.preciseText c ++ " -> " ++ outcome.label ++ " " ++ Root.listLogText roots

end Record

/-! ## Results -/

section Results
variable {α β : Type}

@[simp] theorem ok_bind (a : α) (f : α → Except Failure β) : Except.ok a >>= f = f a := rfl

@[simp] theorem error_bind (e : Failure) (f : α → Except Failure β) :
    Except.error e >>= f = .error e := rfl

@[simp] theorem map_ok (f : α → β) (a : α) : (Except.ok a : Except Failure α).map f = .ok (f a) := rfl

@[simp] theorem map_error (f : α → β) (e : Failure) :
    (Except.error e : Except Failure α).map f = .error e := rfl

theorem bind_eq_ok {x : Except Failure α} {f : α → Except Failure β} {b : β} :
    x >>= f = .ok b ↔ ∃ a, x = .ok a ∧ f a = .ok b := by
  cases x <;> simp

theorem bind_eq_error {x : Except Failure α} {f : α → Except Failure β} {e : Failure} :
    x >>= f = .error e ↔ x = .error e ∨ ∃ a, x = .ok a ∧ f a = .error e := by
  cases x <;> simp

theorem map_eq_ok {x : Except Failure α} {f : α → β} {b : β} :
    x.map f = .ok b ↔ ∃ a, x = .ok a ∧ f a = b := by
  cases x <;> simp

theorem map_eq_error {x : Except Failure α} {f : α → β} {e : Failure} :
    x.map f = .error e ↔ x = .error e := by
  cases x <;> simp

end Results

/-! ## Runs -/

/-- The outcome of a run and what it noted. -/
structure Traced (α : Type) where
  log : List Record
  result : Except Failure α

namespace Traced

variable {α β : Type}

def ofResult (r : Except Failure α) : Traced α := ⟨[], r⟩

def fail (e : Failure) : Traced α := ⟨[], .error e⟩

def note (r : Record) : Traced Unit := ⟨[r], .ok ()⟩

/-- One run after the other; the second one does not start after a failure. -/
def andThen (x : Traced α) (f : α → Traced β) : Traced β :=
  match x.result with
  | .error e => ⟨x.log, .error e⟩
  | .ok a => ⟨x.log ++ (f a).log, (f a).result⟩

def map (f : α → β) (x : Traced α) : Traced β := ⟨x.log, x.result.map f⟩

def prepend (log : List Record) (x : Traced α) : Traced α := ⟨log ++ x.log, x.result⟩

instance : Monad Traced where
  pure a := ⟨[], .ok a⟩
  bind := andThen

@[simp] theorem pure_def (a : α) : (pure a : Traced α) = ⟨[], .ok a⟩ := rfl

@[simp] theorem bind_error (log : List Record) (e : Failure) (f : α → Traced β) :
    (⟨log, .error e⟩ : Traced α) >>= f = ⟨log, .error e⟩ := rfl

@[simp] theorem bind_ok (log : List Record) (a : α) (f : α → Traced β) :
    (⟨log, .ok a⟩ : Traced α) >>= f = ⟨log ++ (f a).log, (f a).result⟩ := rfl

theorem id_map (x : Traced α) : id <$> x = x := by
  obtain ⟨log, result⟩ := x
  cases result
  · rfl
  · exact congrArg (Traced.mk · _) (List.append_nil log)

theorem bind_assoc {γ : Type} (x : Traced α) (f : α → Traced β) (g : β → Traced γ) :
    x >>= f >>= g = x >>= fun a => f a >>= g := by
  obtain ⟨log, result⟩ := x
  cases result with
  | error e => rfl
  | ok a =>
    cases h : f a with
    | mk log' result' => cases result' <;> simp [h]

instance : LawfulMonad Traced := .mk' Traced id_map (fun _ _ => rfl) bind_assoc

theorem eq_mk_of_result {x : Traced α} {r : Except Failure α} (h : x.result = r) :
    x = ⟨x.log, r⟩ := h ▸ rfl

@[simp] theorem result_bind (x : Traced α) (f : α → Traced β) :
    (x >>= f).result = x.result >>= fun a => (f a).result := by
  obtain ⟨log, result⟩ := x
  cases result <;> rfl

@[simp] theorem result_map (f : α → β) (x : Traced α) : (x.map f).result = x.result.map f := rfl

@[simp] theorem result_prepend (log : List Record) (x : Traced α) :
    (x.prepend log).result = x.result := rfl

@[simp] theorem result_ofResult (r : Except Failure α) : (ofResult r).result = r := rfl

@[simp] theorem result_fail (e : Failure) : (fail e : Traced α).result = .error e := rfl

@[simp] theorem result_note (r : Record) : (note r).result = .ok () := rfl

theorem prepend_map_eq_ok {log log' : List Record} {f : α → β} {x : Traced α} {b : β}
    (h : (x.map f).prepend log = ⟨log', .ok b⟩) : ∃ log'' a, x = ⟨log'', .ok a⟩ ∧ f a = b := by
  obtain ⟨own, result⟩ := x
  cases result with
  | error e => simp [map, prepend, Except.map] at h
  | ok a =>
    simp only [map, prepend, Except.map, Traced.mk.injEq, Except.ok.injEq] at h
    exact ⟨own, a, rfl, h.2⟩

theorem bind_ok_iff {x : Traced α} {f : α → Traced β} {log : List Record} {b : β} :
    x >>= f = ⟨log, .ok b⟩ ↔
      ∃ log₁ a log₂, x = ⟨log₁, .ok a⟩ ∧ f a = ⟨log₂, .ok b⟩ ∧ log₁ ++ log₂ = log := by
  obtain ⟨log₁, result⟩ := x
  cases result with
  | error e => simp
  | ok a =>
    constructor
    · intro h
      obtain ⟨rfl, hr⟩ := Traced.mk.inj h
      exact ⟨log₁, a, (f a).log, rfl, eq_mk_of_result hr, rfl⟩
    · rintro ⟨_, _, log₂, h, hf, rfl⟩
      cases h
      rw [bind_ok, hf]

end Traced
end Trinomial
