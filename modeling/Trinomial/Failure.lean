import Trinomial.Complex.Basic
import Trinomial.Degree
import Trinomial.Token

/-! # Failures

Why an equation is refused: the causes, and the one text of each.
-/
set_option autoImplicit false

namespace Trinomial

/-- How many atoms an exponent tower may have. -/
def towerLimit : Nat := 256

inductive Misspelling where
  | forbidden (c : Char)
  /-- A number that ends in its point. -/
  | unfinishedNumber (spelling : String)
  /-- A character that begins no token; `position` counts the characters that are not blank. -/
  | misplaced (c : Char) (position : Nat)
  | noEquals
  | manyEquals (count : Nat)
  | emptySide
  /-- After a term stands neither a sign nor the end. -/
  | afterTerm (found : Token)
  /-- After the sign of a number stands no number. -/
  | signWithoutNumber (sign : Token) (found : Option Token)
  | operandExpected (found : Token)
  | unfinishedTerm
  | tallTower
  | unknownInExponent
deriving DecidableEq

inductive ZeroDivision where
  | denominator (value : Float)
  | powerOfZero (exponent : Float)
  | complex (divisor : ComplexNumber)
deriving DecidableEq

inductive DomainFault where
  | exponentNotFinite (exponent : Float)
  | imaginaryPower (base exponent : Float)
  | rootOfNegative (x : Float)
deriving DecidableEq

inductive Failure where
  | malformed (cause : Misspelling)
  | unsupportedDegree (degree : Degree)
  | zeroDivision (cause : ZeroDivision)
  | outsideDomain (cause : DomainFault)
  | noConvergence (x : Float) (iterations : Nat)
deriving DecidableEq

def Misspelling.message : Misspelling → String
  | forbidden c => "caractère interdit '" ++ String.singleton c ++ "'"
  | unfinishedNumber spelling => "littéral incorrect '" ++ spelling ++ "'"
  | misplaced c position =>
    "'" ++ String.singleton c ++ "' inattendu (position " ++ toString position ++ ")"
  | noEquals => "il manque le signe '='"
  | manyEquals count => toString count ++ " signes '=' (un seul attendu)"
  | emptySide => "membre vide"
  | afterTerm found => "'" ++ found.text ++ "' inattendu après un terme"
  | signWithoutNumber sign none => "littéral attendu après '" ++ sign.text ++ "'"
  | signWithoutNumber sign (some found) =>
    "littéral attendu après '" ++ sign.text ++ "', trouvé '" ++ found.text ++ "'"
  | operandExpected found => "'" ++ found.text ++ "' inattendu (opérande attendu)"
  | unfinishedTerm => "terme incomplet"
  | tallTower => "tour d’exposants trop haute (max " ++ toString towerLimit ++ ")"
  | unknownInExponent => Token.unknown.text ++ " ne peut pas être en exposant"

def ZeroDivision.message : ZeroDivision → String
  | denominator value => "dénominateur nul (" ++ Number.preciseText value ++ ")"
  | powerOfZero exponent =>
    "0 élevé à une puissance négative (" ++ Number.preciseText exponent ++ ")"
  | complex divisor => "division complexe par " ++ divisor.text

def DomainFault.message : DomainFault → String
  | exponentNotFinite exponent => "exposant non fini (" ++ Number.preciseText exponent ++ ")"
  | imaginaryPower base exponent =>
    "résultat imaginaire (" ++ Number.preciseText base ++ "^" ++ Number.preciseText exponent ++ ")"
  | rootOfNegative x => "racine carrée d’un nombre négatif (" ++ Number.preciseText x ++ ")"

def Failure.message : Failure → String
  | malformed cause => "équation incorrecte : " ++ cause.message
  | unsupportedDegree degree =>
    "degré non supporté : " ++ degree.plainText ++ " (seuls 0, 1 et 2 sont acceptés)"
  | zeroDivision cause => "division par zéro : " ++ cause.message
  | outsideDomain cause => "hors domaine : " ++ cause.message
  | noConvergence x iterations =>
    "racine carrée de " ++ Number.plainText x ++ " : pas de convergence après " ++
      toString iterations ++ " itérations"

end Trinomial
