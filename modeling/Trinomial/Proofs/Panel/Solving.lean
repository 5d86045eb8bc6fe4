import Trinomial.Proofs.Panel.Results

/-! # Solving forgets

What the panel shows and notes after solving is determined by the entry: whatever was shown before is
replaced as a whole, by the solution, by the failure, or by the remark that the entry is blank. So
solving once more changes nothing and notes the same.
-/
set_option autoImplicit false

namespace Trinomial.Panel

/-! ## Answers -/

/-- What solving a trimmed entry shows and notes. -/
inductive Answers (entry : String) : Outputs → List Notice → Prop
  | blank (h : entry = "") : Answers entry { error := "Entrée vide" } []
  | solved {o : Outputs} {solution : Solution} {w : Equation.Working} (h : entry ≠ "")
      (hsolve : (Equation.solve entry).result = .ok (solution, w)) (hshows : o.Shows solution w)
      (herror : o.error = "") (havailable : o.available = true) :
      Answers entry o [.solved entry w.roots]
  | refused {e : Failure} (h : entry ≠ "") (hsolve : (Equation.solve entry).result = .error e) :
      Answers entry { error := e.message } [.refused entry e]

/-- One notice is made for an entry that is not blank, a warning if there is no result. -/
theorem Answers.levels {entry : String} {o : Outputs} {notices : List Notice}
    (h : Answers entry o notices) :
    notices.map Notice.isWarning = if entry = "" then [] else [!o.available] := by
  cases h with
  | blank h => rw [if_pos h, List.map_nil]
  | solved h _ _ _ havailable =>
    rw [if_neg h, havailable]
    rfl
  | refused h _ =>
    rw [if_neg h]
    rfl

/-- The answer as a function of the trimmed entry. -/
def answer (entry : String) : Outputs × List Notice :=
  if entry = "" then ({ error := "Entrée vide" }, [])
  else
    match (Equation.solve entry).result with
    | .ok (solution, w) => (.ofSolution solution w, [.solved entry w.roots])
    | .error e => ({ error := e.message }, [.refused entry e])

theorem answers_answer (entry : String) : Answers entry (answer entry).1 (answer entry).2 := by
  rw [answer]
  split
  · rename_i h
    exact .blank h
  · rename_i h
    split
    · rename_i hsolve
      exact .solved h hsolve (shows_of_solution hsolve) rfl rfl
    · rename_i hsolve
      exact .refused h hsolve

/-! ## Solving -/

theorem State.solve_eq (s : State) : s.solve =
    ({ s with outputs := (answer s.trimmed).1, wantsFocus := true }, (answer s.trimmed).2) := by
  rw [answer]
  split
  · rename_i h
    exact s.solve_blank h
  · rename_i h
    split
    · rename_i hsolve
      exact solve_solved h hsolve
    · rename_i hsolve
      exact solve_refused h hsolve

theorem Session.step_solve (s : Session) : s.step (.press .solve) =
    (⟨⟨s.state.entry, (answer s.state.trimmed).1, s.state.detailed, false⟩, true⟩,
      (answer s.state.trimmed).2) := by
  rw [step, State.press, State.solve_eq, settle]

/-- Sessions with one entry that show the working alike are the same after solving, whatever they showed
before and wherever the focus was; solving leaves the entry and the choice of the working as they are,
answers the trimmed entry, and when it is done again changes nothing and notes the same. -/
theorem solving_forgets {s t : Session} (hentry : s.state.entry = t.state.entry)
    (hdetailed : s.state.detailed = t.state.detailed) :
    s.step (.press .solve) = t.step (.press .solve) ∧
      (s.step (.press .solve)).1.state.entry = s.state.entry ∧
      (s.step (.press .solve)).1.state.detailed = s.state.detailed ∧
      Answers s.state.trimmed (s.step (.press .solve)).1.state.outputs (s.step (.press .solve)).2 ∧
      (s.step (.press .solve)).2.map Notice.isWarning = (if s.state.trimmed = "" then []
        else [!(s.step (.press .solve)).1.state.outputs.available]) ∧
      (s.step (.press .solve)).1.step (.press .solve) = s.step (.press .solve) := by
  have hanswers := answers_answer s.state.trimmed
  have htrimmed : s.state.trimmed = t.state.trimmed := by rw [State.trimmed, State.trimmed, hentry]
  have hagain (o : Outputs) : State.trimmed ⟨s.state.entry, o, s.state.detailed, false⟩ =
      s.state.trimmed := rfl
  rw [s.step_solve]
  dsimp only
  refine ⟨?_, rfl, rfl, hanswers, hanswers.levels, ?_⟩
  · rw [t.step_solve, hentry, hdetailed, htrimmed]
  · rw [Session.step_solve, hagain]

/-- A panel with an old error, and one with an old result. -/
def refusedSample : Session := ⟨{ entry := " X = 2", outputs := { error := "Entrée vide" } }, false⟩

def solvedSample : Session :=
  ⟨{ entry := " X = 2", outputs := ⟨"1.0", "X - 1.0 = 0.0", "1", "", "", true, {}⟩ }, true⟩

theorem solving_forgets_sample : refusedSample.state.entry = solvedSample.state.entry ∧
    refusedSample.state.detailed = solvedSample.state.detailed ∧
    refusedSample.step (.press .solve) = solvedSample.step (.press .solve) ∧
    Answers refusedSample.state.trimmed (refusedSample.step (.press .solve)).1.state.outputs
      (refusedSample.step (.press .solve)).2 ∧
    (refusedSample.step (.press .solve)).1.step (.press .solve) =
      refusedSample.step (.press .solve) := by
  obtain ⟨hsame, -, -, hanswers, -, hagain⟩ :=
    solving_forgets (s := refusedSample) (t := solvedSample) rfl rfl
  exact ⟨rfl, rfl, hsame, hanswers, hagain⟩

end Trinomial.Panel
