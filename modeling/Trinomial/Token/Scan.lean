import Trinomial.Failure
import Trinomial.Text.Blank

/-! # From text to tokens

Blank characters are dropped first, everywhere, and a character outside the alphabet is reported before
any other fault. What is left is cut from left to right: a symbol, or the longest number.
-/
set_option autoImplicit false

namespace Trinomial.Token

def isAllowed (c : Char) : Bool := c.isDigit || c == '.' || (ofSymbol? c).isSome

/-- The longest number at the front and what follows it. A point needs a digit after it. -/
def scanNumber (cs : List Char) : Except Failure (List Char × List Char) :=
  let whole := cs.takeWhile Char.isDigit
  match cs.dropWhile Char.isDigit with
  | '.' :: after =>
    let fraction := after.takeWhile Char.isDigit
    if fraction.isEmpty then
      .error (.malformed (.unfinishedNumber (String.ofList (whole ++ ['.']))))
    else .ok (whole ++ '.' :: fraction, after.dropWhile Char.isDigit)
  | rest => .ok (whole, rest)

theorem scan_number_length {c : Char} {cs spelling rest : List Char} (hc : c.isDigit = true)
    (h : scanNumber (c :: cs) = .ok (spelling, rest)) : rest.length < (c :: cs).length := by
  have hle := (List.dropWhile_sublist Char.isDigit (l := cs)).length_le
  simp only [scanNumber, List.dropWhile_cons_of_pos hc] at h
  split at h
  · rename_i after heq
    have hle' := (List.dropWhile_sublist Char.isDigit (l := after)).length_le
    rw [heq] at hle
    split at h
    · simp at h
    · simp at h hle
      rw [← h.2, List.length_cons]
      omega
  · simp at h
    rw [← h.2, List.length_cons]
    omega

/-- The tokens of characters without blanks; `position` counts the characters before them. -/
def scan (position : Nat) (cs : List Char) : Except Failure (List Token) :=
  match cs with
  | [] => .ok []
  | c :: rest =>
    match ofSymbol? c with
    | some t => (scan (position + 1) rest).map (t :: ·)
    | none =>
      if hc : c.isDigit = true then
        match h : scanNumber (c :: rest) with
        | .error e => .error e
        | .ok (spelling, after) =>
          have : after.length < (c :: rest).length := scan_number_length hc h
          (scan (position + spelling.length) after).map (ofSpelling spelling :: ·)
      else .error (.malformed (.misplaced c position))
termination_by cs.length
decreasing_by
  · exact Nat.lt_succ_self _
  · exact this

theorem scan_symbol {c : Char} {t : Token} (h : ofSymbol? c = some t) (position : Nat)
    (rest : List Char) :
    scan position (c :: rest) = (scan (position + 1) rest).map (t :: ·) := by
  rw [scan]
  split <;> simp_all

theorem scan_misplaced {c : Char} (h : ofSymbol? c = none) (hc : c.isDigit = false) (position : Nat)
    (rest : List Char) :
    scan position (c :: rest) = .error (.malformed (.misplaced c position)) := by
  rw [scan]
  split <;> simp_all

theorem scan_number {c : Char} (h : ofSymbol? c = none) (hc : c.isDigit = true) {position : Nat}
    {rest spelling after : List Char} (hn : scanNumber (c :: rest) = .ok (spelling, after)) :
    scan position (c :: rest) =
      (scan (position + spelling.length) after).map (ofSpelling spelling :: ·) := by
  rw [scan]
  split
  · simp_all
  · rw [dif_pos hc]
    split <;> simp_all

theorem scan_unfinished {c : Char} (h : ofSymbol? c = none) (hc : c.isDigit = true) {position : Nat}
    {rest : List Char} {e : Failure} (hn : scanNumber (c :: rest) = .error e) :
    scan position (c :: rest) = .error e := by
  rw [scan]
  split
  · simp_all
  · rw [dif_pos hc]
    split <;> simp_all

/-- The characters of a text that are not blank. -/
def visible (s : String) : List Char := s.toList.filter fun c => !Text.isBlank c

def scanText (s : String) : Except Failure (List Token) :=
  match (visible s).find? fun c => !isAllowed c with
  | some c => .error (.malformed (.forbidden c))
  | none => scan 0 (visible s)

/-- The tokens before and after the only `=`. -/
def splitSides (ts : List Token) : Except Failure (List Token × List Token) :=
  match ts.count equals with
  | 0 => .error (.malformed .noEquals)
  | 1 => .ok (ts.takeWhile (· != equals), (ts.dropWhile (· != equals)).drop 1)
  | n => .error (.malformed (.manyEquals n))

end Trinomial.Token
