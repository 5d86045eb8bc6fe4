import Mathlib.Data.List.DropRight
import Trinomial.Proofs.Panel.Results

/-! # Editing the entry

Every press of a symbol appends it if there is room, and every deletion removes the last symbol,
whatever spaces stand around the symbols. The room is tested once, between the two spaces of an
operator, so the entry outgrows its limit by the spaces at its end, and by nothing else.
-/
set_option autoImplicit false

namespace Trinomial.Panel

/-! ## Spaces -/

/-- The characters of a text that are not spaces. -/
def symbols (cs : List Char) : List Char := cs.filter (· != ' ')

section Spaces
variable (cs : List Char)

theorem strip_end_length_le : (stripEnd cs).length ≤ cs.length :=
  (List.rdropWhile_prefix (· == ' ') cs).length_le

theorem strip_end_space : stripEnd (cs ++ [' ']) = stripEnd cs :=
  List.rdropWhile_concat_pos _ _ _ (by decide)

theorem strip_end_symbol {c : Char} (h : c ≠ ' ') : stripEnd (cs ++ [c]) = cs ++ [c] :=
  List.rdropWhile_concat_neg _ _ _ (by simpa using h)

theorem strip_end_idem : stripEnd (stripEnd cs) = stripEnd cs :=
  List.rdropWhile_idempotent _ _

/-- What is left ends in a symbol. -/
theorem strip_end_cases : stripEnd cs = [] ∨ ∃ init c, c ≠ ' ' ∧ stripEnd cs = init ++ [c] := by
  rcases List.eq_nil_or_concat (stripEnd cs) with h | ⟨init, c, h⟩
  · exact .inl h
  · rw [List.concat_eq_append] at h
    refine .inr ⟨init, c, ?_, h⟩
    rintro rfl
    have hidem := strip_end_idem cs
    rw [h, strip_end_space] at hidem
    have hle := strip_end_length_le init
    rw [hidem, List.length_append, List.length_singleton] at hle
    omega

@[simp] theorem symbols_append (cs ds : List Char) : symbols (cs ++ ds) = symbols cs ++ symbols ds :=
  List.filter_append cs ds

@[simp] theorem symbols_space : symbols [' '] = [] := by rfl

@[simp] theorem symbols_nil : symbols [] = [] := rfl

theorem symbols_singleton {c : Char} (h : c ≠ ' ') : symbols [c] = [c] := by
  rw [symbols, List.filter_singleton, bne_iff_ne.mpr h, cond_true]

@[simp] theorem symbols_strip_end : symbols (stripEnd cs) = symbols cs := by
  induction cs using List.reverseRecOn with
  | nil => rfl
  | append_singleton cs c ih =>
    by_cases hc : c = ' '
    · rw [hc, strip_end_space, ih, symbols_append, symbols_space, List.append_nil]
    · rw [strip_end_symbol cs hc]

/-- The last character before the spaces at the end is the last symbol. -/
theorem symbols_drop_last : symbols (stripEnd cs).dropLast = (symbols cs).dropLast := by
  rw [← symbols_strip_end cs]
  rcases strip_end_cases cs with h | ⟨init, c, hc, h⟩
  · rw [h]
    rfl
  · rw [h, List.dropLast_concat, symbols_append, symbols_singleton hc, List.dropLast_concat]

end Spaces

/-! ## Presses -/

theorem Button.char_ne_space {b : Button} {c : Char} (h : b.char? = some c) : c ≠ ' ' := by
  cases b with
  | digit d =>
    cases h
    revert d
    decide
  | operator o =>
    cases h
    cases o <;> decide
  | point =>
    cases h
    decide
  | unknown =>
    cases h
    decide
  | _ => cases h

/-- The space after a button's character; it is set in any case. -/
def Button.gap : Button → List Char
  | .operator _ => [' ']
  | _ => []

/-- What a button without a character leaves of the entry. -/
def Button.leaves (b : Button) (cs : List Char) : List Char :=
  match b with
  | .delete => stripEnd (stripEnd cs).dropLast
  | .clearEntry | .reset => []
  | _ => cs

namespace State
variable (s : State)

/-- The state with the space before an operator. -/
def spaced : State :=
  let before := stripEnd s.entry.toList
  { s with entry := String.ofList (if before.isEmpty then before else before ++ [' ']) }

/-- The state in which the room for a button's character is tested. -/
def prepared : Button → State
  | .operator _ => s.spaced
  | _ => s

/-- There is room for the character of the button. -/
def accepts (b : Button) : Bool :=
  b.char?.any fun c => (s.prepared b).hasRoom (String.singleton c)

theorem accepts_iff {b : Button} {c : Char} (h : b.char? = some c) :
    s.accepts b = true ↔ (s.prepared b).entry.length + 1 ≤ entryLimit := by
  rw [accepts, h, Option.any_some, hasRoom, String.length_singleton, decide_eq_true_iff]

theorem entry_insert (text : String) : (s.insert text).entry.toList =
    s.entry.toList ++ if s.hasRoom text then text.toList else [] := by
  rw [insert]
  split
  · exact String.toList_append
  · exact (List.append_nil _).symm

/-- A symbol that is no operator is inserted as it is. -/
theorem press_plain {b : Button} {c : Char} (h : b.char? = some c) (hplain : ∀ o, b ≠ .operator o) :
    s.press b = (s.insert (String.singleton c), []) := by
  have hpoint : String.singleton '.' = "." := by decide
  have hunknown : String.singleton 'X' = "X" := by decide
  cases b with
  | operator o => exact absurd rfl (hplain o)
  | digit d =>
    cases h
    rfl
  | point =>
    cases h
    rw [hpoint, press]
  | unknown =>
    cases h
    rw [hunknown, press]
  | _ => cases h

/-- A press of a symbol appends it, if there is room, to the prepared entry. -/
theorem entry_press_symbol {b : Button} {c : Char} (h : b.char? = some c) :
    (s.press b).1.entry.toList =
      (s.prepared b).entry.toList ++ (if s.accepts b then [c] else []) ++ b.gap := by
  rw [accepts, h, Option.any_some, ← String.toList_singleton]
  cases b with
  | operator o =>
    cases h
    rw [← entry_insert]
    exact String.toList_append
  | _ =>
    rw [s.press_plain h nofun, entry_insert]
    exact (List.append_nil _).symm

theorem entry_solve : s.solve.1.entry = s.entry := by
  unfold solve
  dsimp only
  split
  · rfl
  · split <;> rfl

theorem entry_spaced : s.spaced.entry.toList =
    if (stripEnd s.entry.toList).isEmpty then [] else stripEnd s.entry.toList ++ [' '] := by
  rw [spaced, String.toList_ofList]
  split
  · rename_i h
    exact List.isEmpty_iff.mp h
  · rfl

theorem symbols_prepared (b : Button) :
    symbols (s.prepared b).entry.toList = symbols s.entry.toList := by
  cases b with
  | operator o =>
    rw [prepared, entry_spaced, ← symbols_strip_end s.entry.toList]
    split
    · rename_i h
      rw [List.isEmpty_iff.mp h]
    · rw [symbols_append, symbols_space, List.append_nil]
  | _ => rfl

theorem strip_end_prepared (b : Button) :
    stripEnd (s.prepared b).entry.toList = stripEnd s.entry.toList := by
  cases b with
  | operator o =>
    rw [prepared, entry_spaced]
    split
    · rename_i h
      rw [List.isEmpty_iff.mp h]
      rfl
    · rw [strip_end_space, strip_end_idem]
  | _ => rfl

theorem entry_press_other {b : Button} (h : b.char? = none) :
    (s.press b).1.entry.toList = b.leaves s.entry.toList := by
  cases b with
  | delete => exact String.toList_ofList
  | clearEntry => rfl
  | reset => rfl
  | clearOutputs => rfl
  | details => rfl
  | solve =>
    rw [press, entry_solve]
    rfl
  | _ => cases h

end State

namespace Session

@[simp] theorem entry_settle (s : State) : (settle s).state.entry = s.entry := rfl

theorem entry_enter (s : Session) (ctrl : Bool) :
    (s.step (.enter ctrl)).1.state.entry = s.state.entry := by
  cases ctrl with
  | false => rfl
  | true =>
    by_cases h : s.focused = true
    · rw [step, if_pos h, entry_settle, State.entry_solve]
    · rw [step, if_neg h]

end Session
end Trinomial.Panel
