import Trinomial.Equation
import Trinomial.Panel.Entry
import Trinomial.Text.Quoted

/-! # Sessions at the panel

What each button and key does, what it notes, and who has the focus. Solving takes the trimmed entry;
it shows either a result or an error, and never keeps parts of the last one.
-/
set_option autoImplicit false

namespace Trinomial.Panel

/-! ## Solving -/

inductive Notice where
  | solved (entry roots : String)
  | refused (entry : String) (failure : Failure)
deriving DecidableEq

namespace Notice

/-- A refusal is a warning. -/
def isWarning : Notice → Bool
  | solved .. => false
  | refused .. => true

def message : Notice → String
  | solved entry roots => Text.quoted entry ++ " -> " ++ roots
  | refused entry failure => Text.quoted entry ++ " refusée : " ++ failure.message

end Notice

/-- The sentence for the outcome, with the discriminant if there is one. -/
def outcomeText (outcome : String) : Option Float → String
  | some d => outcome ++ " (Δ = " ++ Number.preciseText d ++ ")"
  | none => outcome

/-- The part of the working that the panel keeps to itself. -/
def Details.ofWorking (w : Equation.Working) : Details :=
  ⟨w.tokens, w.rawTable, w.canonical, w.discriminant, w.note⟩

/-- Solves the trimmed entry and shows the result or the error. -/
def State.solve (s : State) : State × List Notice :=
  let entry := String.ofList (Text.trim s.entry.toList)
  if entry.isEmpty then (s.setError "Entrée vide", [])
  else match (Equation.solve entry).result with
    | .ok (solution, w) =>
      (s.setResult w.roots w.reduced w.degree (outcomeText w.outcome solution.discriminant)
        (.ofWorking w), [.solved entry w.roots])
    | .error e => (s.setError e.message, [.refused entry e])

def State.press (s : State) : Button → State × List Notice
  | .digit d => (s.insert (String.singleton (Nat.digitChar d)), [])
  | .point => (s.insert ".", [])
  | .unknown => (s.insert "X", [])
  | .operator o => (s.insertOperator o, [])
  | .delete => (s.delete, [])
  | .clearEntry => (s.clearEntry, [])
  | .clearOutputs => (s.clearOutputs, [])
  | .reset => (s.reset, [])
  | .solve => s.solve
  | .details => (s.setDetailed !s.detailed, [])

/-! ## Sessions -/

structure Session where
  state : State
  focused : Bool
deriving DecidableEq

inductive Step where
  | press (b : Button)
  | escape
  | enter (ctrl : Bool)
  | setEntry (text : String)
deriving DecidableEq

namespace Session

/-- After an action the entry has the focus if the action asked for it. -/
def settle (s : State) : Session := ⟨{ s with wantsFocus := false }, s.wantsFocus⟩

/-- An empty panel with the focus on the entry. -/
def start : Session := settle {}

/-- One step of the user. A plain Enter only leaves the entry; with Ctrl it solves, if the entry has
the focus. -/
def step (s : Session) : Step → Session × List Notice
  | .press b => ((settle (s.state.press b).1), (s.state.press b).2)
  | .escape => (settle s.state.clearEntry, [])
  | .enter false => ({ s with focused := false }, [])
  | .enter true => if s.focused then (settle s.state.solve.1, s.state.solve.2) else (s, [])
  | .setEntry text => ({ s with state := { s.state with entry := text } }, [])

/-- The sessions after each of the steps, with what each step noted. -/
def run (s : Session) : List Step → List (Session × List Notice)
  | [] => []
  | step :: steps => s.step step :: run (s.step step).1 steps

end Session
end Trinomial.Panel
