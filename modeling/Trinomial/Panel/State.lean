/-! # The state of the panel

One entry, the last result or error, and the working. Each action is a function on the state. An entry
that is changed leaves the outputs alone, and the other way round.
-/
set_option autoImplicit false

namespace Trinomial.Panel

structure Details where
  tokens : String := ""
  rawTable : String := ""
  canonical : String := ""
  discriminant : String := ""
  note : String := ""
deriving DecidableEq

structure Outputs where
  roots : String := ""
  reduced : String := ""
  degree : String := ""
  outcome : String := ""
  error : String := ""
  available : Bool := false
  details : Details := {}
deriving DecidableEq

structure State where
  entry : String := ""
  outputs : Outputs := {}
  detailed : Bool := false
  wantsFocus : Bool := true
deriving DecidableEq

/-- How many characters the buttons may put into the entry. -/
def entryLimit : Nat := 512

namespace State

def clearEntry (s : State) : State := { s with entry := "", wantsFocus := true }

def clearOutputs (s : State) : State := { s with outputs := {}, wantsFocus := true }

def reset (s : State) : State :=
  { s.clearEntry.clearOutputs with detailed := false, wantsFocus := true }

/-- Shows an error in place of any result. -/
def setError (s : State) (message : String) : State :=
  { s with outputs := { error := message }, wantsFocus := true }

/-- Shows a result in place of any error. -/
def setResult (s : State) (roots reduced degree outcome : String) (details : Details) : State :=
  { s with outputs := ⟨roots, reduced, degree, outcome, "", true, details⟩, wantsFocus := true }

def setDetailed (s : State) (detailed : Bool) : State :=
  { s with detailed := detailed, wantsFocus := true }

def hasRoom (s : State) (text : String) : Bool :=
  decide (s.entry.length + text.length ≤ entryLimit)

/-- Appends a text to the entry, if there is room for it. -/
def insert (s : State) (text : String) : State :=
  if s.hasRoom text then { s with entry := s.entry ++ text, wantsFocus := true } else s

end State
end Trinomial.Panel
