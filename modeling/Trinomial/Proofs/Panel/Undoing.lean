import Trinomial.Proofs.Panel.Independence
import Trinomial.Proofs.Panel.Limit

/-! # Deleting undoes inserting

Deleting right after a symbol was inserted takes away the symbol, the spaces that were set around it, and any
spaces that stood at the end of the entry before. Nothing else on the panel changes.
-/
set_option autoImplicit false

namespace Trinomial.Panel

/-! ## Texts without spaces at their end -/

/-- The second text is the first one without the spaces at its end. -/
structure Stripped (cs rest : List Char) : Prop where
  spaces : ∃ n, cs = rest ++ List.replicate n ' '
  end_ne_space : ∀ init, rest ≠ init ++ [' ']

theorem stripped_strip_end (cs : List Char) : Stripped cs (stripEnd cs) := by
  induction cs using List.reverseRecOn with
  | nil => exact ⟨⟨0, rfl⟩, fun init h => List.append_ne_nil_of_right_ne_nil init (by decide) h.symm⟩
  | append_singleton cs c ih =>
    by_cases hc : c = ' '
    · rw [hc, strip_end_space]
      obtain ⟨n, hn⟩ := ih.spaces
      refine ⟨⟨n + 1, ?_⟩, ih.end_ne_space⟩
      rw [List.replicate_succ', ← List.append_assoc, ← hn]
    · rw [strip_end_symbol cs hc]
      refine ⟨⟨0, (List.append_nil _).symm⟩, fun init h => hc ?_⟩
      exact List.singleton_inj.mp (List.append_inj_right' h rfl)

theorem Stripped.eq {cs rest : List Char} (h : Stripped cs rest) (hend : ∀ init, cs ≠ init ++ [' ']) :
    rest = cs := by
  obtain ⟨n, hn⟩ := h.spaces
  cases n with
  | zero => rw [hn, List.replicate_zero, List.append_nil]
  | succ n =>
    rw [List.replicate_succ', ← List.append_assoc] at hn
    exact absurd hn (hend _)

/-! ## A symbol and its deletion -/

/-- Before the spaces at its end the entry has the inserted symbol, and before that what it had. -/
theorem Session.entry_undone (s : Session) {b : Button} {c : Char} (hb : b.char? = some c)
    (h : s.state.accepts b = true) :
    (s.after [.press b, .press .delete]).state.entry.toList = stripEnd s.state.entry.toList := by
  change ((s.step (.press b)).1.step (.press .delete)).1.state.entry.toList = _
  rw [step_press, entry_settle, State.entry_press_other _ rfl, step_press, entry_settle, Button.leaves,
    State.entry_press_symbol _ hb, if_pos h, strip_end_gap, strip_end_symbol _ (Button.char_ne_space hb),
    List.dropLast_concat, State.strip_end_prepared]

theorem Step.edits_of_char {b : Button} {c : Char} (hb : b.char? = some c) :
    (Step.press b).edits = true := by
  cases b with
  | digit d => rfl
  | point => rfl
  | unknown => rfl
  | operator o => rfl
  | _ => cases hb

/-- A symbol that was inserted and then deleted leaves the entry without the spaces at its end, so as it was if
there were none, and the outputs as they are. -/
theorem delete_undoes_insertion (s : Session) {b : Button} {c : Char} (hb : b.char? = some c)
    (h : s.state.accepts b = true) :
    Stripped s.state.entry.toList (s.after [.press b, .press .delete]).state.entry.toList ∧
      ((∀ init, s.state.entry.toList ≠ init ++ [' ']) →
        (s.after [.press b, .press .delete]).state.entry = s.state.entry) ∧
      (s.after [.press b, .press .delete]).state.outputs = s.state.outputs ∧
      (s.after [.press b, .press .delete]).state.detailed = s.state.detailed := by
  have hstripped := stripped_strip_end s.state.entry.toList
  rw [← s.entry_undone hb h] at hstripped
  obtain ⟨houtputs, hdetailed⟩ := Session.edit_frame s (Step.edits_of_char hb)
  have hdelete : (Step.press .delete).edits = true := rfl
  obtain ⟨houtputs', hdetailed'⟩ := Session.edit_frame (s.step (.press b)).1 hdelete
  exact ⟨hstripped, fun hend => String.toList_inj.mp (hstripped.eq hend), houtputs'.trans houtputs,
    hdetailed'.trans hdetailed⟩

/-- An operator on an entry with spaces at its end. -/
theorem delete_undoes_operator : Button.char? (.operator .plus) = some '+' ∧
    State.accepts { entry := " X  " } (.operator .plus) = true ∧
    Stripped " X  ".toList ((Session.mk { entry := " X  " } false).after
      [.press (.operator .plus), .press .delete]).state.entry.toList := by
  have hb : Button.char? (.operator .plus) = some '+' := rfl
  have h : State.accepts { entry := " X  " } (.operator .plus) = true := by decide
  exact ⟨hb, h, (delete_undoes_insertion (Session.mk { entry := " X  " } false) hb h).1⟩

end Trinomial.Panel
