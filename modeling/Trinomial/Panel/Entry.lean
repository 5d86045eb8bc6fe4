import Trinomial.Panel.Button
import Trinomial.Panel.State

/-! # Editing the entry

Operators stand between spaces, all other symbols as they are. Deleting removes a symbol together with
the spaces around it.
-/
set_option autoImplicit false

namespace Trinomial.Panel

def stripEnd (cs : List Char) : List Char := (cs.reverse.dropWhile (· == ' ')).reverse

namespace State

/-- Appends an operator: one space before it, unless it is the first symbol, and one after it. The
spaces are set even when there is no room for the operator. -/
def insertOperator (s : State) (o : Operator) : State :=
  let before := stripEnd s.entry.toList
  let spaced := String.ofList (if before.isEmpty then before else before ++ [' '])
  let inserted := ({ s with entry := spaced } : State).insert (String.singleton o.char)
  { inserted with entry := inserted.entry ++ " " }

/-- Removes the last symbol and the spaces around it. -/
def delete (s : State) : State :=
  { s with
    entry := String.ofList (stripEnd (stripEnd s.entry.toList).dropLast)
    wantsFocus := true }

end State
end Trinomial.Panel
