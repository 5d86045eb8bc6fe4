import Trinomial.Root

/-! # Solutions

The six ways in which an equation of degree at most two comes out.
-/
set_option autoImplicit false

namespace Trinomial

inductive Outcome where
  | identity
  | contradiction
  | linear
  | doubleRoot
  | twoReals
  | conjugatePair
deriving DecidableEq

namespace Outcome

def label : Outcome → String
  | identity => "ToutReel"
  | contradiction => "AucuneSolution"
  | linear => "Lineaire"
  | doubleRoot => "DiscriminantNul"
  | twoReals => "DiscriminantPositif"
  | conjugatePair => "DiscriminantNegatif"

def description : Outcome → String
  | identity => "Tout réel X est solution de l’équation."
  | contradiction => "L’équation n’a pas de solution."
  | linear => "L’équation a une solution unique."
  | doubleRoot => "Discriminant nul : deux solutions réelles confondues."
  | twoReals => "Discriminant strictement positif : deux solutions réelles."
  | conjugatePair =>
    "Discriminant strictement négatif : pas de solution réelle, deux solutions complexes conjuguées."

end Outcome

structure Solution where
  outcome : Outcome
  /-- Only an equation of degree two has one. -/
  discriminant : Option Float
  roots : List Root
deriving DecidableEq

end Trinomial
