import Trinomial.Proofs.Number.Decimals
import Trinomial.Token.Scan

/-! # Numerals

Plain notation writes numerals `digits(.digits)?`, whatever the size of the number, and the scanner reads
a numeral as one token with the same value.
-/
set_option autoImplicit false

namespace Trinomial

/-- A numeral `digits(.digits)?`. -/
structure Numeral where
  whole : List Char
  fraction : List Char
  whole_ne_nil : whole ≠ []
  whole_digits : ∀ c ∈ whole, c.isDigit = true
  fraction_digits : ∀ c ∈ fraction, c.isDigit = true

namespace Numeral

/-- The numeral of one digit. -/
def digit (c : Char) (h : c.isDigit = true) : Numeral :=
  ⟨[c], [], List.cons_ne_nil c [], List.forall_mem_singleton.mpr h, nofun⟩

variable (n : Numeral)

def chars : List Char := if n.fraction = [] then n.whole else n.whole ++ '.' :: n.fraction

def decimal : Decimal := .ofChars n.whole n.fraction

/-! ## Reading a numeral -/

/-- What follows cannot continue a numeral. -/
def Ends (rest : List Char) : Prop := ∀ c ∈ rest.head?, c.isDigit = false ∧ c ≠ '.'

/-- What satisfies a test, in front of what does not, is what is taken by it. -/
theorem span_append {p : Char → Bool} {ds : List Char} (rest : List Char) (hd : ∀ c ∈ ds, p c = true)
    (hr : ∀ c ∈ rest.head?, p c = false) :
    (ds ++ rest).takeWhile p = ds ∧ (ds ++ rest).dropWhile p = rest := by
  rw [List.takeWhile_append_of_pos hd, List.dropWhile_append_of_pos hd]
  cases rest with
  | nil => simp
  | cons c rest =>
    have hc := hr c rfl
    simp [hc]

theorem of_spelling : Number.ofSpelling n.chars = Number.ofDecimal n.decimal := by
  unfold chars
  split_ifs with h
  · obtain ⟨htake, hdrop⟩ := span_append [] n.whole_digits nofun
    rw [List.append_nil] at htake hdrop
    rw [Number.ofSpelling, htake, hdrop, decimal, h]
    rfl
  · obtain ⟨htake, hdrop⟩ := span_append ('.' :: n.fraction) n.whole_digits (by simp)
    rw [Number.ofSpelling, htake, hdrop]
    rfl

/-- The value of a numeral is the number nearest to it, ties to even. -/
theorem of_spelling_nearest :
    Number.ofSpelling n.chars = Number.ofParts (Number.roundTo .positive n.decimal.value) := by
  rw [of_spelling]
  apply Number.of_decimal_eq
  change -(n.fraction.length : ℤ) ≤ 2048
  omega

theorem scan_number {rest : List Char} (h : Ends rest) :
    Token.scanNumber (n.chars ++ rest) = .ok (n.chars, rest) := by
  have hrest : ∀ c ∈ rest.head?, c.isDigit = false := fun c hc => (h c hc).1
  unfold chars
  split_ifs with hf
  · obtain ⟨htake, hdrop⟩ := span_append rest n.whole_digits hrest
    rw [Token.scanNumber, htake, hdrop]
    split
    · exact absurd rfl (h '.' rfl).2
    · rfl
  · rw [List.append_assoc]
    obtain ⟨htake, hdrop⟩ := span_append ('.' :: n.fraction ++ rest) n.whole_digits (by simp)
    obtain ⟨htake', hdrop'⟩ := span_append rest n.fraction_digits hrest
    rw [Token.scanNumber, htake, hdrop]
    simp only [List.cons_append, htake', hdrop', List.isEmpty_iff, hf, if_false]

theorem chars_head : ∃ c cs, n.chars = c :: cs ∧ c.isDigit = true := by
  obtain ⟨c, cs, hw⟩ := List.exists_cons_of_ne_nil n.whole_ne_nil
  have hc := n.whole_digits c (by rw [hw]; exact List.mem_cons_self)
  rw [chars, hw]
  split_ifs
  · exact ⟨c, cs, rfl, hc⟩
  · exact ⟨c, cs ++ '.' :: n.fraction, rfl, hc⟩

theorem digit_not_symbol {c : Char} (hc : c.isDigit = true) : Token.ofSymbol? c = none := by
  have hne (s : Char) (hs : s.isDigit = false) : c ≠ s := by
    rintro rfl
    rw [hs] at hc
    cases hc
  rw [Token.ofSymbol?, if_neg (hne '+' rfl), if_neg (hne '-' rfl), if_neg (hne '*' rfl),
    if_neg (hne '/' rfl), if_neg (hne '^' rfl), if_neg (hne '=' rfl), if_neg (hne 'X' rfl)]

/-- The scanner reads a numeral as one token. -/
theorem scan_chars {rest : List Char} (h : Ends rest) (position : ℕ) :
    Token.scan position (n.chars ++ rest) =
      (Token.scan (position + n.chars.length) rest).map (.ofSpelling n.chars :: ·) := by
  obtain ⟨c, cs, hcs, hc⟩ := n.chars_head
  have hn := n.scan_number h
  rw [hcs] at hn ⊢
  exact Token.scan_number (digit_not_symbol hc) hc hn

theorem chars_allowed {c : Char} (h : c ∈ n.chars) : c.isDigit = true ∨ c = '.' := by
  unfold chars at h
  split_ifs at h
  · exact .inl (n.whole_digits c h)
  · rcases List.mem_append.mp h with h | h
    · exact .inl (n.whole_digits c h)
    · rcases List.mem_cons.mp h with h | h
      · exact .inr h
      · exact .inl (n.fraction_digits c h)

end Numeral

/-! ## Writing a numeral -/

namespace Decimal

theorem digit_chars_digits {d : Decimal} {c : Char} (h : c ∈ d.digitChars) : c.isDigit = true :=
  Nat.isDigit_of_mem_toDigits (by decide) (by decide) h

theorem of_digit_chars (d : Decimal) : Nat.ofDigitChars 10 d.digitChars 0 = d.digits :=
  Nat.ofDigitChars_ten_toDigits

/-- A decimal is laid out as a numeral of the same value, with or without a point behind integers. -/
theorem positional_numeral (d : Decimal) (pointed : Bool) :
    ∃ n : Numeral, n.chars = d.positionalChars pointed ∧ n.decimal.value = d.value := by
  have hdigits (c : Char) (h : c ∈ d.digitChars) : c.isDigit = true := digit_chars_digits h
  have hzeros (k : ℕ) (c : Char) (h : c ∈ List.replicate k '0') : c.isDigit = true := by
    rw [List.eq_of_mem_replicate h]
    rfl
  have hne : d.digitChars ≠ [] := Nat.toDigits_ne_nil
  unfold positionalChars
  dsimp only
  split_ifs with h0 hpointed hshort
  · refine ⟨⟨d.digitChars ++ List.replicate d.exponent.toNat '0', ['0'], ?_, ?_, hzeros 1⟩, ?_, ?_⟩
    · exact List.append_ne_nil_of_left_ne_nil hne _
    · intro c h
      exact (List.mem_append.mp h).elim (hdigits c) (hzeros _ c)
    · exact if_neg (List.cons_ne_nil _ _)
    · have hpower : ((10 ^ d.exponent.toNat : ℕ) : ℚ) = 10 ^ d.exponent := by
        push_cast
        rw [← zpow_natCast, Int.toNat_of_nonneg h0]
      rw [Numeral.decimal, ofChars, Nat.ofDigitChars_append, Nat.ofDigitChars_append, of_digit_chars,
        Nat.ofDigitChars_replicate_zero, value, value, ← hpower]
      simp [Nat.ofDigitChars_cons]
      ring
  · refine ⟨⟨d.digitChars ++ List.replicate d.exponent.toNat '0', [], ?_, ?_, nofun⟩, ?_, ?_⟩
    · exact List.append_ne_nil_of_left_ne_nil hne _
    · intro c h
      exact (List.mem_append.mp h).elim (hdigits c) (hzeros _ c)
    · exact (if_pos rfl).trans (List.append_nil _).symm
    · rw [Numeral.decimal, ofChars, List.append_nil, Nat.ofDigitChars_append, of_digit_chars,
        Nat.ofDigitChars_replicate_zero, value, value, List.length_nil, Nat.cast_zero, neg_zero,
        zpow_zero, mul_one, mul_comm]
      push_cast
      rw [← zpow_natCast, Int.toNat_of_nonneg h0]
  · have hplaces : d.digitChars.length - (d.digitChars.length - (-d.exponent).toNat) =
        (-d.exponent).toNat := by omega
    refine ⟨⟨d.digitChars.take (d.digitChars.length - (-d.exponent).toNat),
      d.digitChars.drop (d.digitChars.length - (-d.exponent).toNat), ?_, ?_, ?_⟩, ?_, ?_⟩
    · rw [ne_eq, List.take_eq_nil_iff, not_or]
      exact ⟨by omega, hne⟩
    · exact fun c h => hdigits c (List.mem_of_mem_take h)
    · exact fun c h => hdigits c (List.mem_of_mem_drop h)
    · rw [Numeral.chars, if_neg]
      dsimp only
      rw [List.drop_eq_nil_iff]
      omega
    · rw [Numeral.decimal, ofChars, List.take_append_drop, of_digit_chars, List.length_drop, hplaces]
      congr 2
      omega
  · refine ⟨⟨['0'], List.replicate ((-d.exponent).toNat - d.digitChars.length) '0' ++ d.digitChars,
      by decide, ?_, ?_⟩, ?_, ?_⟩
    · intro c h
      rw [List.mem_singleton.mp h]
      rfl
    · intro c h
      exact (List.mem_append.mp h).elim (hzeros _ c) (hdigits c)
    · exact if_neg (List.append_ne_nil_of_right_ne_nil _ hne)
    · have hzero : ['0'] ++ (List.replicate ((-d.exponent).toNat - d.digitChars.length) '0' ++
          d.digitChars) =
          List.replicate ((-d.exponent).toNat - d.digitChars.length + 1) '0' ++ d.digitChars := rfl
      rw [Numeral.decimal, ofChars, hzero, Nat.ofDigitChars_append, Nat.ofDigitChars_replicate_zero,
        Nat.mul_zero, of_digit_chars, List.length_append, List.length_replicate]
      congr 2
      omega

end Decimal

/-! ## Plain text of a number -/

namespace Number

theorem chars_finite (style : NumberStyle) {x : Float} (hx : x.isFinite = true) :
    chars style x =
      (if isNegative x then ['-'] else []) ++ (magnitude x).shortest.chars style := by
  have hnan : x.isNaN = false := by
    change (parts x).isNaN = false
    rcases finite_cases hx with ⟨hp, -⟩ | ⟨_, hp⟩ <;> rw [hp] <;> rfl
  have hinf : x.isInf = false := by
    change (parts x).isInf = false
    rcases finite_cases hx with ⟨hp, -⟩ | ⟨_, hp⟩ <;> rw [hp] <;> rfl
  rw [chars, hnan, hinf]
  rfl

theorem nonnegative_numeral {x : Float} (hx : x.isFinite = true) (hsign : isNegative x = false) :
    ∃ n : Numeral, n.chars = (magnitude x).shortest.chars .plain ∧ ofSpelling n.chars = x := by
  have hpos := sign_of_nonnegative hsign
  rcases finite_cases hx with ⟨hparts, -⟩ | ⟨hreg, hparts⟩ <;> rw [hpos] at hparts
  · rw [eq_of_parts (hparts.trans parts_zero.symm)]
    exact ⟨.digit '0' rfl, by decide, by decide⟩
  · obtain ⟨n, hchars, hvalue⟩ := (magnitude x).shortest.positional_numeral false
    have hcell : (magnitude x).Cell n.decimal.value := by
      rw [hvalue]
      exact Magnitude.shortest_cell hreg
    refine ⟨n, hchars, ?_⟩
    rw [n.of_spelling]
    exact of_decimal_of_cell hreg hparts hcell

/-- Plain notation of a finite number is a sign and a numeral, and the numeral is read as the size of
the number, bit for bit. -/
theorem plain_numeral {x : Float} (hx : x.isFinite = true) :
    ∃ n : Numeral, chars .plain x = (if isNegative x then ['-'] else []) ++ n.chars ∧
      ofSpelling n.chars = x.abs := by
  obtain ⟨hfinite, hsign, hmagnitude⟩ := abs_finite hx
  obtain ⟨n, hchars, hvalue⟩ := nonnegative_numeral hfinite hsign
  refine ⟨n, ?_, hvalue⟩
  rw [chars_finite _ hx, hchars, hmagnitude]

end Number
end Trinomial
