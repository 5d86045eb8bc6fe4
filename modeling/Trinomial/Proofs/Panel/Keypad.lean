import Trinomial.Proofs.Panel.Editing

/-! # The keypad as a stack

Without its spaces the entry is a stack of symbols: a press that has room pushes its symbol, deleting
pops one, and clearing empties the stack. Scanning drops the spaces, so the tokens of the entry are
those of the stack.
-/
set_option autoImplicit false

namespace Trinomial.Panel

/-! ## The stack -/

/-- What a button without a character leaves of the stack. -/
def Button.pops (b : Button) (stack : List Char) : List Char :=
  match b with
  | .delete => stack.dropLast
  | .clearEntry | .reset => []
  | _ => stack

namespace Session

/-- The stack after a step. A symbol is pushed when there is room for it, and the step changes nothing
when there is none. An assigned text brings its symbols with it. -/
def stackAfter (s : Session) (stack : List Char) : Step → List Char
  | .press b =>
    match b.char? with
    | some c => if s.state.accepts b then stack ++ [c] else stack
    | none => b.pops stack
  | .escape => []
  | .enter _ => stack
  | .setEntry text => symbols text.toList

/-- The stack after some steps. -/
def typed (s : Session) (stack : List Char) : List Step → List Char
  | [] => stack
  | step :: steps => (s.step step).1.typed (s.stackAfter stack step) steps

/-! ## The entry as the stack -/

theorem symbols_leaves (b : Button) (cs : List Char) :
    symbols (b.leaves cs) = b.pops (symbols cs) := by
  cases b with
  | delete => rw [Button.leaves, symbols_strip_end, symbols_drop_last, Button.pops]
  | _ => rfl

theorem symbols_press (s : Session) (b : Button) :
    symbols (s.state.press b).1.entry.toList =
      s.stackAfter (symbols s.state.entry.toList) (.press b) := by
  rw [stackAfter]
  cases hb : b.char? with
  | some c =>
    have hgap : symbols b.gap = [] := by cases b <;> rfl
    rw [State.entry_press_symbol _ hb, symbols_append, symbols_append, State.symbols_prepared, hgap,
      List.append_nil]
    split
    · rw [symbols_singleton (Button.char_ne_space hb)]
    · rw [symbols_nil, List.append_nil]
  | none => rw [State.entry_press_other _ hb, symbols_leaves]

/-- A step does to the symbols of the entry what it does to the stack. -/
theorem symbols_step (s : Session) (step : Step) :
    symbols (s.step step).1.state.entry.toList =
      s.stackAfter (symbols s.state.entry.toList) step := by
  cases step with
  | press b =>
    rw [step_press, entry_settle]
    exact s.symbols_press b
  | escape => rfl
  | enter ctrl => rw [entry_enter, stackAfter]
  | setEntry text => rfl

theorem symbols_after (s : Session) (steps : List Step) :
    symbols (s.after steps).state.entry.toList = s.typed (symbols s.state.entry.toList) steps := by
  induction steps generalizing s with
  | nil => rfl
  | cons step steps ih =>
    rw [typed, ← symbols_step]
    exact ih (s.step step).1

end Session

/-! ## Scanning -/

theorem visible_symbols (s : String) :
    Token.visible (String.ofList (symbols s.toList)) = Token.visible s := by
  have hspace : ∀ c : Char, (!Text.isBlank c) = true → (c != ' ') = true := by
    intro c hc
    rw [bne_iff_ne]
    rintro rfl
    cases hc
  rw [Token.visible, Token.visible, String.toList_ofList, symbols, List.filter_filter]
  refine List.filter_congr fun c _ => ?_
  cases hc : !Text.isBlank c with
  | false => rfl
  | true => rw [hspace c hc]; rfl

theorem scan_text_symbols (s : String) :
    Token.scanText (String.ofList (symbols s.toList)) = Token.scanText s := by
  rw [Token.scanText, Token.scanText, visible_symbols]

/-- After any steps at the panel the entry without its spaces is the stack of what was typed, and it is
read as the same tokens. -/
theorem entry_is_stack (steps : List Step) :
    symbols (Session.start.after steps).state.entry.toList = Session.start.typed [] steps ∧
      Token.scanText (Session.start.after steps).state.entry =
        Token.scanText (String.ofList (Session.start.typed [] steps)) := by
  have hsymbols := Session.start.symbols_after steps
  exact ⟨hsymbols, hsymbols ▸ (scan_text_symbols _).symm⟩

end Trinomial.Panel
