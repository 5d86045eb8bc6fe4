import Trinomial.Proofs.Number.Numerals

/-! # Printed tokens

A list of tokens in which no number follows a number is scanned back from its own text, whatever
blanks stand in between.
-/
set_option autoImplicit false

namespace Trinomial.Token

/-- A number token is spelled as a numeral and has the value that is read from it. -/
def WellSpelled : Token → Prop
  | number v s => ∃ n : Numeral, s = String.ofList n.chars ∧ v = Number.ofSpelling n.chars
  | _ => True

def isNumber : Token → Bool
  | number .. => true
  | _ => false

/-- Tokens that their text determines. -/
structure Printable (ts : List Token) : Prop where
  spelled : ∀ t ∈ ts, t.WellSpelled
  apart : ts.IsChain fun t u => t.isNumber = true → u.isNumber = false

/-- The characters of tokens, without blanks. -/
def letters (ts : List Token) : List Char := ts.flatMap fun t => t.text.toList

/-! ## Single tokens -/

theorem well_spelled_numeral (n : Numeral) : (ofSpelling n.chars).WellSpelled := ⟨n, rfl, rfl⟩

theorem WellSpelled.exists_numeral {v : Float} {s : String} (h : (number v s).WellSpelled) :
    ∃ n : Numeral, number v s = ofSpelling n.chars := by
  obtain ⟨n, rfl, rfl⟩ := h
  exact ⟨n, rfl⟩

/-- A token that is no number is written as its symbol. -/
theorem text_symbol {t : Token} (h : t.isNumber = false) :
    ∃ c, t.text.toList = [c] ∧ ofSymbol? c = some t := by
  cases t with
  | number v s => cases h
  | unknown => exact ⟨'X', rfl, rfl⟩
  | plus => exact ⟨'+', rfl, rfl⟩
  | minus => exact ⟨'-', rfl, rfl⟩
  | times => exact ⟨'*', rfl, rfl⟩
  | divide => exact ⟨'/', rfl, rfl⟩
  | caret => exact ⟨'^', rfl, rfl⟩
  | equals => exact ⟨'=', rfl, rfl⟩

/-- The value is the number nearest to the numeral. -/
theorem WellSpelled.value_nearest {v : Float} {n : Numeral}
    (h : (number v (String.ofList n.chars)).WellSpelled) :
    v = Number.ofParts (Number.roundTo .positive n.decimal.value) := by
  obtain ⟨n', hchars, rfl⟩ := h
  rw [← String.ofList_injective hchars, n.of_spelling_nearest]

theorem text_of_spelling (cs : List Char) : (ofSpelling cs).text.toList = cs := String.toList_ofList

theorem symbol_ends {c : Char} {t : Token} (h : ofSymbol? c = some t) :
    c.isDigit = false ∧ c ≠ '.' := by
  constructor
  · by_contra hc
    rw [Bool.not_eq_false] at hc
    rw [Numeral.digit_not_symbol hc] at h
    cases h
  · rintro rfl
    cases h

/-! ## Lists of tokens -/

theorem letters_ends {ts : List Token} (h : ∀ t ∈ ts.head?, t.isNumber = false) :
    Numeral.Ends (letters ts) := by
  cases ts with
  | nil => nofun
  | cons t ts =>
    obtain ⟨c, htext, hc⟩ := text_symbol (h t rfl)
    intro d hd
    rw [letters, List.flatMap_cons, htext] at hd
    cases hd
    exact symbol_ends hc

theorem printable_tail {t : Token} {ts : List Token} (h : Printable (t :: ts)) : Printable ts :=
  ⟨fun u hu => h.spelled u (List.mem_cons_of_mem t hu), h.apart.tail⟩

theorem scan_letters {ts : List Token} (h : Printable ts) (position : ℕ) :
    scan position (letters ts) = .ok ts := by
  induction ts generalizing position with
  | nil => exact scan.eq_1 position
  | cons t ts ih =>
    have ih := ih (printable_tail h)
    rw [letters, List.flatMap_cons]
    change scan position (t.text.toList ++ letters ts) = _
    cases hn : t.isNumber with
    | false =>
      obtain ⟨c, htext, hc⟩ := text_symbol hn
      rw [htext, List.singleton_append, scan_symbol hc, ih]
      rfl
    | true =>
      cases t with
      | number v s =>
        obtain ⟨n, hspelling⟩ := (h.spelled _ List.mem_cons_self).exists_numeral
        have hends : Numeral.Ends (letters ts) := by
          apply letters_ends
          intro u hu
          exact h.apart.rel_head? hu hn
        rw [hspelling, text_of_spelling, n.scan_chars hends, ih]
        rfl
      | _ => cases hn

theorem letters_allowed {ts : List Token} (h : ∀ t ∈ ts, t.WellSpelled) {c : Char}
    (hc : c ∈ letters ts) : isAllowed c = true := by
  obtain ⟨t, ht, hc⟩ := List.mem_flatMap.mp hc
  cases hn : t.isNumber with
  | false =>
    obtain ⟨d, htext, hd⟩ := text_symbol hn
    rw [htext, List.mem_singleton] at hc
    rw [hc, isAllowed, hd]
    simp
  | true =>
    cases t with
    | number v s =>
      obtain ⟨n, hspelling⟩ := (h _ ht).exists_numeral
      rw [hspelling, text_of_spelling] at hc
      rcases n.chars_allowed hc with hd | rfl
      · simp [isAllowed, hd]
      · rfl
    | _ => cases hn

/-- A text whose visible characters are those of printable tokens is scanned to these tokens. -/
theorem scan_text_letters {s : String} {ts : List Token} (h : Printable ts)
    (hs : visible s = letters ts) : scanText s = .ok ts := by
  have hfind : (visible s).find? (fun c => !isAllowed c) = none := by
    rw [List.find?_eq_none, hs]
    intro c hc
    rw [letters_allowed h.spelled hc]
    decide
  rw [scanText, hfind, hs]
  exact scan_letters h 0

/-! ## Visible characters -/

theorem visible_append (s t : String) : visible (s ++ t) = visible s ++ visible t := by
  rw [visible, String.toList_append, List.filter_append]
  rfl

theorem visible_of_list {cs : List Char} (h : ∀ c ∈ cs, Text.isBlank c = false) :
    visible (String.ofList cs) = cs := by
  rw [visible, String.toList_ofList, List.filter_eq_self]
  intro c hc
  rw [h c hc]
  rfl

theorem digit_bounds {c : Char} (h : c.isDigit = true) : 48 ≤ c.toNat ∧ c.toNat ≤ 57 := by
  rw [Char.isDigit, Bool.and_eq_true, decide_eq_true_iff, decide_eq_true_iff] at h
  exact ⟨h.1, h.2⟩

theorem digit_not_blank {c : Char} (h : c.isDigit = true ∨ c = '.') : Text.isBlank c = false := by
  rcases h with h | rfl
  · have hc := digit_bounds h
    simp only [Text.isBlank, Text.blankRanges, List.any_cons, List.any_nil, Bool.or_false,
      Bool.or_eq_false_iff, Bool.and_eq_false_iff, decide_eq_false_iff_not]
    omega
  · rfl

end Trinomial.Token
