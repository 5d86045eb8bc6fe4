/-! # The buttons of the panel

Which buttons there are, what is written on each, and which character it puts into the entry.
-/
set_option autoImplicit false

namespace Trinomial.Panel

/-- The symbols that are set between spaces. -/
inductive Operator where
  | plus
  | minus
  | times
  | divide
  | caret
  | equals
deriving DecidableEq

inductive Button where
  | digit (d : Fin 10)
  | point
  | unknown
  | operator (o : Operator)
  | delete
  | clearEntry
  | clearOutputs
  | reset
  | solve
  | details
deriving DecidableEq

def Operator.char : Operator → Char
  | plus => '+'
  | minus => '-'
  | times => '*'
  | divide => '/'
  | caret => '^'
  | equals => '='

namespace Button

/-- The character that a button puts into the entry. -/
def char? : Button → Option Char
  | digit d => some (Nat.digitChar d)
  | point => some '.'
  | unknown => some 'X'
  | operator o => some o.char
  | _ => none

def label (b : Button) : String :=
  match b with
  | delete => "DEL"
  | clearEntry => "C"
  | clearOutputs => "CLR"
  | reset => "AC"
  | solve => "Résoudre"
  | details => "Démarche détaillée"
  | b => (b.char?.map String.singleton).getD ""

def all : List Button :=
  (List.finRange 10).map digit ++ [point, unknown] ++
    [Operator.plus, .minus, .times, .divide, .caret, .equals].map operator ++
    [delete, clearEntry, clearOutputs, reset, solve, details]

def ofLabel? (s : String) : Option Button := all.find? fun b => b.label == s

end Button

end Trinomial.Panel
