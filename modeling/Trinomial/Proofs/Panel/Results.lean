import Trinomial.Panel.Labels
import Trinomial.Panel.Session
import Trinomial.Proofs.Solution.ZeroSigns

/-! # Results on the panel

The panel shows a whole result, an error, or nothing. Every action replaces all outputs or none of
them, so a result on the panel is that of the last entry that was solved, with nothing in between that
has touched it.
-/
set_option autoImplicit false

namespace Trinomial.Panel

/-! ## Whole results -/

/-- Without a result its fields are empty, and with one there is no error. -/
structure Outputs.Whole (o : Outputs) : Prop where
  empty : o.available = false →
    o.roots = "" ∧ o.reduced = "" ∧ o.degree = "" ∧ o.outcome = "" ∧ o.details = ⟨"", "", "", "", ""⟩
  errorless : o.available = true → o.error = ""

theorem Outputs.whole_error (message : String) : Outputs.Whole { error := message } :=
  ⟨fun _ => ⟨rfl, rfl, rfl, rfl, rfl⟩, nofun⟩

theorem Outputs.whole_result (roots reduced degree outcome : String) (details : Details) :
    Outputs.Whole ⟨roots, reduced, degree, outcome, "", true, details⟩ :=
  ⟨nofun, fun _ => rfl⟩

/-- The outputs of a solution with its working. -/
def Outputs.ofSolution (solution : Solution) (w : Equation.Working) : Outputs :=
  ⟨w.roots, w.reduced, w.degree, outcomeText w.outcome solution.discriminant, "", true,
    .ofWorking w⟩

namespace State
variable (s : State)

@[simp] theorem outputs_insert (text : String) : (s.insert text).outputs = s.outputs := by
  rw [insert]
  split <;> rfl

@[simp] theorem outputs_insert_operator (o : Operator) :
    (s.insertOperator o).outputs = s.outputs := by
  rw [insertOperator]
  dsimp only
  rw [outputs_insert]

/-- What an error is shown with: a dash in place of the result, and details without content. -/
def errorLabels : List String :=
  ["Solveur Q-pur", "Équation :", s.outputs.error, "—"] ++
    if s.detailed then detailLabels ⟨"", "", "", "", ""⟩ else []

theorem labels_of_error (h : s.outputs.Whole) (herror : s.outputs.error ≠ "") :
    s.labels = s.errorLabels := by
  have hnone : s.outputs.available = false :=
    Bool.eq_false_iff.mpr fun havailable => herror (h.errorless havailable)
  have hlabel : s.outputs.error.isEmpty = false := by
    rw [Bool.eq_false_iff, Ne, String.isEmpty_iff]
    exact herror
  obtain ⟨-, -, -, -, hdetails⟩ := h.empty hnone
  rw [labels, resultLabels, hnone, hlabel, hdetails]
  rfl

/-! ## Solving -/

/-- What is solved: the entry without the blanks at its ends. -/
def trimmed : String := String.ofList (Text.trim s.entry.toList)

theorem solve_blank (h : s.trimmed = "") : s.solve = (s.setError "Entrée vide", []) := by
  have hempty : s.trimmed.isEmpty = true := String.isEmpty_iff.mpr h
  unfold solve
  exact if_pos hempty

section Entered
variable {s} (h : s.trimmed ≠ "")
include h

theorem solve_solved {solution : Solution} {w : Equation.Working}
    (hsolve : (Equation.solve s.trimmed).result = .ok (solution, w)) :
    s.solve = ({ s with outputs := .ofSolution solution w, wantsFocus := true },
      [.solved s.trimmed w.roots]) := by
  have hempty : ¬s.trimmed.isEmpty = true := fun hh => h (String.isEmpty_iff.mp hh)
  unfold solve
  rw [trimmed] at hempty hsolve ⊢
  simp only [hempty, hsolve, Bool.false_eq_true, if_false]
  rfl

theorem solve_refused {e : Failure} (hsolve : (Equation.solve s.trimmed).result = .error e) :
    s.solve = (s.setError e.message, [.refused s.trimmed e]) := by
  have hempty : ¬s.trimmed.isEmpty = true := fun hh => h (String.isEmpty_iff.mp hh)
  unfold solve
  rw [trimmed] at hempty hsolve ⊢
  simp only [hempty, hsolve, Bool.false_eq_true, if_false]

end Entered

/-- Solving shows an error, or the solution of an entry that is not blank. -/
theorem solve_cases : (∃ message, s.solve.1.outputs = { error := message }) ∨
    ∃ solution w, s.trimmed ≠ "" ∧ (Equation.solve s.trimmed).result = .ok (solution, w) ∧
      s.solve.1.outputs = .ofSolution solution w := by
  by_cases hblank : s.trimmed = ""
  · refine .inl ⟨"Entrée vide", ?_⟩
    rw [s.solve_blank hblank]
    rfl
  · cases hresult : (Equation.solve s.trimmed).result with
    | error e =>
      refine .inl ⟨e.message, ?_⟩
      rw [solve_refused hblank hresult]
      rfl
    | ok p =>
      refine .inr ⟨p.1, p.2, hblank, rfl, ?_⟩
      rw [solve_solved hblank hresult]

/-- A button leaves the outputs as they are, takes any result away, or solves. -/
theorem press_cases (b : Button) : (s.press b).1.outputs = s.outputs ∨
    (s.press b).1.outputs = {} ∨ b = .solve := by
  cases b with
  | digit d => exact .inl (s.outputs_insert (String.singleton (Nat.digitChar d)))
  | point => exact .inl (s.outputs_insert ".")
  | unknown => exact .inl (s.outputs_insert "X")
  | operator o => exact .inl (s.outputs_insert_operator o)
  | delete =>
    refine .inl ?_
    rw [press, delete]
  | clearEntry => exact .inl rfl
  | clearOutputs => exact .inr (.inl rfl)
  | reset => exact .inr (.inl rfl)
  | solve => exact .inr (.inr rfl)
  | details => exact .inl rfl

end State

/-! ## Steps -/

/-- The step solves the entry. -/
def Step.solves (s : Session) : Step → Bool
  | .press .solve => true
  | .enter true => s.focused
  | _ => false

namespace Session

@[simp] theorem outputs_settle (s : State) : (settle s).state.outputs = s.outputs := rfl

theorem step_press (s : Session) (b : Button) :
    (s.step (.press b)).1 = settle (s.state.press b).1 := rfl

theorem step_of_solves {s : Session} {step : Step} (h : step.solves s = true) :
    (s.step step).1.state.outputs = s.state.solve.1.outputs := by
  unfold Step.solves at h
  split at h
  · rw [step_press, outputs_settle, State.press]
  · rw [Session.step, if_pos h, outputs_settle]
  · cases h

/-- A step leaves the outputs as they are, takes any result away, or solves. -/
theorem step_cases (s : Session) (step : Step) :
    (s.step step).1.state.outputs = s.state.outputs ∨ (s.step step).1.state.outputs = {} ∨
      step.solves s = true := by
  cases step with
  | press b =>
    rw [step_press, outputs_settle]
    refine (s.state.press_cases b).imp id (Or.imp id fun h => ?_)
    rw [h]
    rfl
  | escape => exact .inl rfl
  | enter ctrl =>
    cases ctrl with
    | false => exact .inl rfl
    | true =>
      cases hfocused : s.focused with
      | false => exact .inl (by rw [step, hfocused]; rfl)
      | true => exact .inr (.inr hfocused)
  | setEntry text => exact .inl rfl

end Session

/-! ## Runs -/

/-- What can happen to the panel: a step of the user, or a call of one of the actions on its state. -/
inductive Action where
  | step (s : Step)
  | clearEntry
  | clearOutputs
  | reset
  | setError (message : String)
  | setResult (roots reduced degree outcome : String) (details : Details)
  | setDetailed (detailed : Bool)
  | insert (text : String)

namespace Session

def act (s : Session) : Action → Session
  | .step step => (s.step step).1
  | .clearEntry => { s with state := s.state.clearEntry }
  | .clearOutputs => { s with state := s.state.clearOutputs }
  | .reset => { s with state := s.state.reset }
  | .setError message => { s with state := s.state.setError message }
  | .setResult roots reduced degree outcome details =>
    { s with state := s.state.setResult roots reduced degree outcome details }
  | .setDetailed detailed => { s with state := s.state.setDetailed detailed }
  | .insert text => { s with state := s.state.insert text }

/-- The session after some actions. -/
def afterAll (s : Session) (actions : List Action) : Session := actions.foldl act s

/-- The session after some steps. -/
def after (s : Session) (steps : List Step) : Session := steps.foldl (fun s step => (s.step step).1) s

theorem after_concat (s : Session) (steps : List Step) (step : Step) :
    s.after (steps ++ [step]) = ((s.after steps).step step).1 := by
  rw [after, List.foldl_append]
  rfl

theorem act_whole {s : Session} (a : Action) (h : s.state.outputs.Whole) :
    (s.act a).state.outputs.Whole := by
  cases a with
  | step step =>
    rw [act]
    rcases s.step_cases step with hkeep | hnone | hsolves
    · rw [hkeep]
      exact h
    · rw [hnone]
      exact Outputs.whole_error ""
    · rw [step_of_solves hsolves]
      rcases s.state.solve_cases with ⟨message, herror⟩ | ⟨solution, w, -, -, hsolved⟩
      · rw [herror]
        exact Outputs.whole_error message
      · rw [hsolved]
        exact Outputs.whole_result ..
  | clearEntry => exact h
  | clearOutputs => exact Outputs.whole_error ""
  | reset => exact Outputs.whole_error ""
  | setError message => exact Outputs.whole_error message
  | setResult roots reduced degree outcome details => exact Outputs.whole_result ..
  | setDetailed detailed => exact h
  | insert text =>
    change (s.state.insert text).outputs.Whole
    rw [State.outputs_insert]
    exact h

theorem after_all_whole {s : Session} (actions : List Action) (h : s.state.outputs.Whole) :
    (s.afterAll actions).state.outputs.Whole := by
  induction actions generalizing s with
  | nil => exact h
  | cons a actions ih => exact ih (act_whole a h)

/-- After `before`, the step solves an entry that is not blank, and through all of `later` the outputs
are those of its solution. -/
structure SolvedAt (s : Session) (before : List Step) (step : Step) (later : List Step)
    (solution : Solution) (w : Equation.Working) : Prop where
  solves : step.solves (s.after before) = true
  entered : (s.after before).state.trimmed ≠ ""
  solved : (Equation.solve (s.after before).state.trimmed).result = .ok (solution, w)
  shown : ∀ first last, later = first ++ last →
    (s.after (before ++ step :: first)).state.outputs = .ofSolution solution w

/-- A result on the panel has been solved at one of the steps. -/
theorem exists_solved {s : Session} (hs : s.state.outputs.available = false) {steps : List Step}
    (h : (s.after steps).state.outputs.available = true) :
    ∃ before step later solution w, steps = before ++ step :: later ∧
      s.SolvedAt before step later solution w := by
  induction steps using List.reverseRecOn with
  | nil => exact absurd h (Bool.eq_false_iff.mp hs)
  | append_singleton steps last ih =>
    rw [after_concat] at h
    rcases (s.after steps).step_cases last with hkeep | hnone | hsolves
    · rw [hkeep] at h
      obtain ⟨before, step, later, solution, w, rfl, hat⟩ := ih h
      refine ⟨before, step, later ++ [last], solution, w, by simp, hat.solves, hat.entered,
        hat.solved, fun first rest hparts => ?_⟩
      rcases List.eq_nil_or_concat rest with rfl | ⟨rest, step', rfl⟩
      · rw [List.append_nil] at hparts
        rw [← hparts, ← List.cons_append, ← List.append_assoc, after_concat, hkeep]
        exact hat.shown later [] (List.append_nil later).symm
      · rw [List.concat_eq_append, ← List.append_assoc] at hparts
        exact hat.shown first rest (List.append_inj_left' hparts rfl)
    · rw [hnone] at h
      cases h
    · have hstep := step_of_solves hsolves
      rcases (s.after steps).state.solve_cases with
        ⟨message, herror⟩ | ⟨solution, w, hentered, hsolved, hshown⟩
      · rw [hstep, herror] at h
        cases h
      · refine ⟨steps, last, [], solution, w, rfl, hsolves, hentered, hsolved,
          fun first rest hparts => ?_⟩
        obtain ⟨rfl, -⟩ := List.append_eq_nil_iff.mp hparts.symm
        rw [after_concat, hstep, hshown]

end Session

/-! ## What the panel shows -/

/-- The fields of a result are those of a solution and its working; the sentence for the outcome ends
in the discriminant if there is one. -/
structure Outputs.Shows (o : Outputs) (solution : Solution) (w : Equation.Working) : Prop where
  roots : o.roots = w.roots
  reduced : o.reduced = w.reduced
  degree : o.degree = w.degree
  details : o.details = ⟨w.tokens, w.rawTable, w.canonical, w.discriminant, w.note⟩
  outcome : o.outcome = solution.outcome.description ++
    solution.discriminant.elim "" fun d => " (Δ = " ++ Number.preciseText d ++ ")"

theorem shows_of_solution {entry : String} {solution : Solution} {w : Equation.Working}
    (h : (Equation.solve entry).result = .ok (solution, w)) :
    (Outputs.ofSolution solution w).Shows solution w := by
  refine ⟨rfl, rfl, rfl, rfl, ?_⟩
  obtain ⟨ts, raw, t, -, -, -, -, rfl⟩ := Equation.solve_eq_ok.mp h
  change outcomeText solution.outcome.description solution.discriminant = _
  cases solution.discriminant with
  | none => exact String.append_empty.symm
  | some d =>
    rw [outcomeText, Option.elim_some]
    simp only [String.append_assoc]

/-- Whatever happens to the panel, its fields are those of a whole result or of none, and an error is
never shown with a part of a result. After steps of the user alone, a result is that of an entry solved
at one of the steps, which no step since then has touched. -/
theorem results_never_half_shown :
    (∀ actions : List Action, (Session.start.afterAll actions).state.outputs.Whole ∧
      ((Session.start.afterAll actions).state.outputs.error ≠ "" →
        (Session.start.afterAll actions).state.labels =
          (Session.start.afterAll actions).state.errorLabels)) ∧
      ∀ steps : List Step, (Session.start.after steps).state.outputs.available = true →
        ∃ before step later solution w, steps = before ++ step :: later ∧
          Session.start.SolvedAt before step later solution w ∧
          (Session.start.after steps).state.outputs.Shows solution w := by
  constructor
  · intro actions
    have hwhole : (Session.start.afterAll actions).state.outputs.Whole :=
      Session.after_all_whole actions (Outputs.whole_error "")
    exact ⟨hwhole, State.labels_of_error _ hwhole⟩
  · intro steps h
    obtain ⟨before, step, later, solution, w, rfl, hat⟩ := Session.exists_solved rfl h
    refine ⟨before, step, later, solution, w, rfl, hat, ?_⟩
    rw [hat.shown later [] (List.append_nil later).symm]
    exact shows_of_solution hat.solved

/-- An entry is solved and then edited. -/
def editedSample : List Step :=
  [.setEntry " X = 2", .press .solve, .press (.digit 3), .press .details]

theorem results_never_half_shown_sample :
    (Session.start.after editedSample).state.outputs.available = true ∧
      ∃ before step later solution w, editedSample = before ++ step :: later ∧
        Session.start.SolvedAt before step later solution w ∧
        (Session.start.after editedSample).state.outputs.Shows solution w := by
  have h : (Session.start.after editedSample).state.outputs.available = true := by
    decide +kernel
  exact ⟨h, results_never_half_shown.2 editedSample h⟩

end Trinomial.Panel
