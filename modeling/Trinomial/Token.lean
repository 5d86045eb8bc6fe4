import Trinomial.Number.Reading

/-! # Tokens

The words of an equation. A number token keeps its spelling beside its value, so that the tokens are
shown as they were written.
-/
set_option autoImplicit false

namespace Trinomial

/-- A word of an equation. A sign is always a word of its own. -/
inductive Token where
  | number (value : Float) (spelling : String)
  | unknown
  | plus
  | minus
  | times
  | divide
  | caret
  | equals
deriving DecidableEq

namespace Token

def ofSymbol? (c : Char) : Option Token :=
  if c = '+' then some plus
  else if c = '-' then some minus
  else if c = '*' then some times
  else if c = '/' then some divide
  else if c = '^' then some caret
  else if c = '=' then some equals
  else if c = 'X' then some unknown
  else none

/-- The number token of a spelling `digits(.digits)?`. -/
def ofSpelling (spelling : List Char) : Token :=
  number (Number.ofSpelling spelling) (String.ofList spelling)

def text : Token → String
  | number _ spelling => spelling
  | unknown => "X"
  | plus => "+"
  | minus => "-"
  | times => "*"
  | divide => "/"
  | caret => "^"
  | equals => "="

/-- Tokens as written, a space between any two. -/
def listText (ts : List Token) : String := " ".intercalate (ts.map text)

end Token
end Trinomial
