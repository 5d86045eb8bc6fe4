import Trinomial.Proofs.Panel.Editing

/-! # Entry and outputs are independent

A step that edits the entry reads and writes nothing but the entry, and a step that manages the results reads
and writes nothing but the outputs and the choice of the working. So two sequences of such steps may be
interleaved in any way. Resetting leaves nothing of a panel but the empty one.
-/
set_option autoImplicit false

namespace Trinomial.Panel

/-! ## Two kinds of steps -/

/-- The step edits the entry: a symbol, `DEL`, `C`, Escape, or a text assigned to it. -/
def Step.edits : Step → Bool
  | .press (.digit _) | .press .point | .press .unknown | .press (.operator _) => true
  | .press .delete | .press .clearEntry | .escape | .setEntry _ => true
  | _ => false

/-- The step manages the results: `CLR`, or the choice of the working. -/
def Step.manages : Step → Bool
  | .press .clearOutputs | .press .details => true
  | _ => false

namespace State
variable (s : State)

@[simp] theorem detailed_insert (text : String) : (s.insert text).detailed = s.detailed := by
  rw [insert]
  split <;> rfl

@[simp] theorem detailed_insert_operator (o : Operator) :
    (s.insertOperator o).detailed = s.detailed := by
  rw [insertOperator]
  dsimp only
  rw [detailed_insert]

variable {s} {t : State} (h : s.entry = t.entry)
include h

theorem insert_congr (text : String) : (s.insert text).entry = (t.insert text).entry := by
  rw [insert, insert, hasRoom, hasRoom, h]
  split
  · rfl
  · exact h

theorem insert_operator_congr (o : Operator) :
    (s.insertOperator o).entry = (t.insertOperator o).entry := by
  have hspaced : s.spaced.entry = t.spaced.entry := by rw [spaced, spaced, h]
  have hinsert := insert_congr hspaced (String.singleton o.char)
  change (s.spaced.insert (String.singleton o.char)).entry ++ " " =
    (t.spaced.insert (String.singleton o.char)).entry ++ " "
  rw [hinsert]

end State

namespace Session
variable {s t : Session} {step : Step}

@[simp] theorem detailed_settle (s : State) : (settle s).state.detailed = s.detailed := rfl

/-- Editing leaves the outputs and the choice of the working as they are. -/
theorem edit_frame (s : Session) (h : step.edits = true) :
    (s.step step).1.state.outputs = s.state.outputs ∧
      (s.step step).1.state.detailed = s.state.detailed := by
  cases step with
  | press b =>
    rw [step_press, outputs_settle, detailed_settle]
    cases b with
    | digit d =>
      let text := String.singleton (Nat.digitChar d)
      exact ⟨s.state.outputs_insert text, s.state.detailed_insert text⟩
    | point => exact ⟨s.state.outputs_insert ".", s.state.detailed_insert "."⟩
    | unknown => exact ⟨s.state.outputs_insert "X", s.state.detailed_insert "X"⟩
    | operator o => exact ⟨s.state.outputs_insert_operator o, s.state.detailed_insert_operator o⟩
    | delete =>
      rw [State.press, State.delete]
      exact ⟨rfl, rfl⟩
    | clearEntry => exact ⟨rfl, rfl⟩
    | _ => cases h
  | escape => exact ⟨rfl, rfl⟩
  | setEntry text => exact ⟨rfl, rfl⟩
  | enter ctrl => cases h

/-- What editing makes of the entry depends on the entry alone. -/
theorem edit_congr (h : step.edits = true) (hentry : s.state.entry = t.state.entry) :
    (s.step step).1.state.entry = (t.step step).1.state.entry := by
  cases step with
  | press b =>
    rw [step_press, step_press, entry_settle, entry_settle]
    cases b with
    | digit d => exact State.insert_congr hentry (String.singleton (Nat.digitChar d))
    | point => exact State.insert_congr hentry "."
    | unknown => exact State.insert_congr hentry "X"
    | operator o => exact State.insert_operator_congr hentry o
    | delete =>
      change String.ofList _ = String.ofList _
      rw [hentry]
    | clearEntry => rfl
    | _ => cases h
  | escape => rfl
  | setEntry text => rfl
  | enter ctrl => cases h

/-- Managing the results leaves the entry as it is. -/
theorem manage_frame (s : Session) (h : step.manages = true) :
    (s.step step).1.state.entry = s.state.entry := by
  cases step with
  | press b =>
    cases b with
    | clearOutputs => rfl
    | details => rfl
    | _ => cases h
  | _ => cases h

/-- What managing makes of the outputs and the choice of the working depends on these alone. -/
theorem manage_congr (h : step.manages = true) (houtputs : s.state.outputs = t.state.outputs)
    (hdetailed : s.state.detailed = t.state.detailed) :
    (s.step step).1.state.outputs = (t.step step).1.state.outputs ∧
      (s.step step).1.state.detailed = (t.step step).1.state.detailed := by
  cases step with
  | press b =>
    cases b with
    | clearOutputs => exact ⟨rfl, hdetailed⟩
    | details => exact ⟨houtputs, congrArg not hdetailed⟩
    | _ => cases h
  | _ => cases h

end Session

/-! ## Interleavings -/

/-- The last list consists of the two others, each in its own order. -/
inductive Interleaves {α : Type} : List α → List α → List α → Prop
  | nil : Interleaves [] [] []
  | left {x : α} {xs ys zs : List α} (h : Interleaves xs ys zs) : Interleaves (x :: xs) ys (x :: zs)
  | right {y : α} {xs ys zs : List α} (h : Interleaves xs ys zs) : Interleaves xs (y :: ys) (y :: zs)

namespace Session

/-- The entry goes with the edits and the rest with the other steps, also when each of the three runs starts at
a session of its own. -/
theorem after_interleaved {edits managing steps : List Step} (h : Interleaves edits managing steps)
    (hedits : ∀ step ∈ edits, step.edits = true) (hmanaging : ∀ step ∈ managing, step.manages = true)
    {s t u : Session} (hentry : s.state.entry = t.state.entry)
    (houtputs : s.state.outputs = u.state.outputs) (hdetailed : s.state.detailed = u.state.detailed) :
    (s.after steps).state.entry = (t.after edits).state.entry ∧
      (s.after steps).state.outputs = (u.after managing).state.outputs ∧
      (s.after steps).state.detailed = (u.after managing).state.detailed := by
  induction h generalizing s t u with
  | nil => exact ⟨hentry, houtputs, hdetailed⟩
  | @left step _ _ _ _ ih =>
    obtain ⟨hstep, hedits⟩ := List.forall_mem_cons.mp hedits
    obtain ⟨hkeep, hkeep'⟩ := edit_frame s hstep
    exact ih hedits hmanaging (edit_congr hstep hentry) (hkeep.trans houtputs) (hkeep'.trans hdetailed)
  | @right step _ _ _ _ ih =>
    obtain ⟨hstep, hmanaging⟩ := List.forall_mem_cons.mp hmanaging
    obtain ⟨houtputs', hdetailed'⟩ := manage_congr hstep houtputs hdetailed
    exact ih hedits hmanaging ((manage_frame s hstep).trans hentry) houtputs' hdetailed'

end Session

/-- From any session on, edits of the entry and steps that manage the results end alike in whatever way they
are interleaved: with the entry of the edits alone, and with the outputs and the choice of the working of the
other steps alone. Resetting ends at the panel as it starts. -/
theorem editing_independent_of_results (s : Session) :
    (∀ edits managing steps : List Step, (∀ step ∈ edits, step.edits = true) →
      (∀ step ∈ managing, step.manages = true) → Interleaves edits managing steps →
      (s.after steps).state.entry = (s.after edits).state.entry ∧
        (s.after steps).state.outputs = (s.after managing).state.outputs ∧
        (s.after steps).state.detailed = (s.after managing).state.detailed) ∧
      s.state.reset = {} ∧ (s.step (.press .reset)).1 = .start :=
  ⟨fun _ _ _ hedits hmanaging h => Session.after_interleaved h hedits hmanaging rfl rfl rfl, rfl, rfl⟩

/-- A panel that shows an error, with edits of its entry, other steps, and all of them mixed. -/
def errorSample : Session := ⟨{ entry := "X", outputs := { error := "Entrée vide" } }, true⟩

def editsSample : List Step :=
  [.press (.operator .equals), .press .delete, .setEntry " X = 2 ", .press .unknown]

def managingSample : List Step := [.press .details, .press .clearOutputs]

def mixedSample : List Step :=
  [.press (.operator .equals), .press .details, .press .delete, .setEntry " X = 2 ",
    .press .clearOutputs, .press .unknown]

theorem editing_independent_sample : (∀ step ∈ editsSample, step.edits = true) ∧
    (∀ step ∈ managingSample, step.manages = true) ∧
    Interleaves editsSample managingSample mixedSample ∧
    (errorSample.after mixedSample).state.entry = (errorSample.after editsSample).state.entry ∧
    (errorSample.after mixedSample).state.outputs = (errorSample.after managingSample).state.outputs ∧
    (errorSample.after mixedSample).state.detailed =
      (errorSample.after managingSample).state.detailed := by
  have hedits : ∀ step ∈ editsSample, step.edits = true := by decide
  have hmanaging : ∀ step ∈ managingSample, step.manages = true := by decide
  have hmixed : Interleaves editsSample managingSample mixedSample :=
    .left (.right (.left (.left (.right (.left .nil)))))
  exact ⟨hedits, hmanaging, hmixed,
    (editing_independent_of_results errorSample).1 _ _ _ hedits hmanaging hmixed⟩

end Trinomial.Panel
