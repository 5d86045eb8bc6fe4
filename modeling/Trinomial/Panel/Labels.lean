import Trinomial.Panel.State

/-! # What the panel shows

The texts on the panel from top to bottom, without those of the controls.
-/
set_option autoImplicit false

namespace Trinomial.Panel.State

/-- The result, or a dash as long as there is none. -/
def resultLabels (s : State) : List String :=
  if s.outputs.available then
    ["Forme réduite :", s.outputs.reduced, "Degré : " ++ s.outputs.degree, s.outputs.outcome,
      "Racines :", s.outputs.roots]
  else ["—"]

def detailLabels (d : Details) : List String :=
  ["Jetons :", d.tokens, "Table brute :", d.rawTable, "Forme canonique :", d.canonical,
    "Discriminant :", d.discriminant, "Note :", d.note]

def labels (s : State) : List String :=
  ["Solveur Q-pur", "Équation :"] ++
    (if s.outputs.error.isEmpty then [] else [s.outputs.error]) ++ s.resultLabels ++
    (if s.detailed then detailLabels s.outputs.details else [])

end Trinomial.Panel.State
