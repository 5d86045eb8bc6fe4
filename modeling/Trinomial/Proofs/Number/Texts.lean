import Trinomial.Proofs.Number.Numerals

/-! # Texts of numbers

The text of a number is a minus sign where it has one, and the text of its size. That is a numeral, possibly
with an exponent, or the name of infinity. Whatever the style, it is read back as the number, bit for bit.
-/
set_option autoImplicit false

namespace Trinomial
open Number (readExponent? readUnsigned? ofDecimal isDigits)

/-! ## Exponents -/

theorem is_digits_iff {cs : List Char} :
    isDigits cs = true ↔ cs ≠ [] ∧ ∀ c ∈ cs, c.isDigit = true := by
  rw [isDigits, Bool.and_eq_true, Bool.not_eq_true', List.isEmpty_eq_false_iff, List.all_eq_true]

theorem read_exponent_digits {cs : List Char} (h : isDigits cs = true) :
    readExponent? cs = some (Nat.ofDigitChars 10 cs 0 : ℤ) := by
  have hdigits := (is_digits_iff.mp h).2
  unfold readExponent?
  split
  · exact absurd (hdigits '-' List.mem_cons_self) (by decide)
  · exact absurd (hdigits '+' List.mem_cons_self) (by decide)
  · rw [if_pos h]

/-- An exponent is a sign, if it has one, and digits: zeros in front make up the width and do not count. -/
theorem exists_exponent_digits (style : NumberStyle) (e : ℤ) : ∃ digits, Decimal.exponentChars style e =
      (if e < 0 then ['-'] else if style.signedExponent then ['+'] else []) ++ digits ∧
    isDigits digits = true ∧ Nat.ofDigitChars 10 digits 0 = e.natAbs ∧
      style.exponentWidth ≤ digits.length := by
  refine ⟨_, List.append_assoc _ _ _, ?_, ?_, ?_⟩
  · refine is_digits_iff.mpr ⟨List.append_ne_nil_of_right_ne_nil _ Nat.toDigits_ne_nil, fun c hc => ?_⟩
    rcases List.mem_append.mp hc with hc | hc
    · rw [List.eq_of_mem_replicate hc]
      rfl
    · exact Nat.isDigit_of_mem_toDigits (by decide) (by decide) hc
  · rw [Nat.ofDigitChars_append, Nat.ofDigitChars_replicate_zero, Nat.mul_zero,
      Nat.ofDigitChars_ten_toDigits]
  · rw [List.length_append, List.length_replicate]
    omega

/-- An exponent is read as what it stands for, with or without a plus sign and zeros in front. -/
theorem read_exponent (style : NumberStyle) (e : ℤ) :
    readExponent? (Decimal.exponentChars style e) = some e := by
  obtain ⟨digits, hchars, hdigits, hvalue, -⟩ := exists_exponent_digits style e
  rw [hchars]
  split_ifs with hneg hplus
  · rw [List.singleton_append, readExponent?, if_pos hdigits, hvalue]
    congr 1
    omega
  · rw [List.singleton_append, readExponent?, if_pos hdigits, hvalue]
    congr 1
    omega
  · rw [List.nil_append, read_exponent_digits hdigits, hvalue]
    congr 1
    omega

/-! ## Numerals with an exponent -/

/-- What may follow a numeral: nothing, or an exponent of the given value. -/
inductive ExponentPart : List Char → ℤ → Prop
  | none : ExponentPart [] 0
  | marked {es : List Char} {e : ℤ} (h : readExponent? es = some e) : ExponentPart ('e' :: es) e

namespace Numeral
variable (n : Numeral)

theorem spans : n.chars.takeWhile (· != '.') = n.whole ∧
    (n.chars.dropWhile (· != '.')).drop 1 = n.fraction := by
  have hwhole : ∀ c ∈ n.whole, (c != '.') = true := by
    intro c hc
    rw [bne_iff_ne]
    rintro rfl
    exact absurd (n.whole_digits '.' hc) (by decide)
  rw [chars]
  split_ifs with hfraction
  · obtain ⟨htake, hdrop⟩ := span_append [] hwhole (by simp)
    rw [List.append_nil] at htake hdrop
    rw [htake, hdrop, hfraction]
    exact ⟨rfl, rfl⟩
  · obtain ⟨htake, hdrop⟩ := span_append ('.' :: n.fraction) hwhole (by simp)
    rw [htake, hdrop]
    exact ⟨rfl, rfl⟩

theorem is_numeral : (isDigits n.whole &&
    (n.whole.length == n.chars.length || isDigits n.fraction)) = true := by
  rw [Bool.and_eq_true, Bool.or_eq_true, is_digits_iff, is_digits_iff, beq_iff_eq]
  refine ⟨⟨n.whole_ne_nil, n.whole_digits⟩, ?_⟩
  by_cases hfraction : n.fraction = []
  · rw [chars, if_pos hfraction]
    exact .inl rfl
  · exact .inr ⟨hfraction, n.fraction_digits⟩

/-- A numeral has no mark of an exponent. -/
theorem unmarked : ∀ c ∈ n.chars, (c != 'e') = true := by
  intro c hc
  rw [bne_iff_ne]
  rintro rfl
  exact (n.chars_allowed hc).elim (by decide) (by decide)

theorem read_unsigned {tail : List Char} {e : ℤ} (h : ExponentPart tail e) :
    readUnsigned? (n.chars ++ tail) =
      some (ofDecimal ⟨n.decimal.digits, n.decimal.exponent + e⟩) := by
  have htail : ∀ c ∈ tail.head?, (c != 'e') = false := by
    cases h with
    | none => nofun
    | marked _ =>
      intro c hc
      cases hc
      rfl
  have hhead (name : List Char) (c : Char) (cs : List Char) (hname : name = c :: cs)
      (hc : c.isDigit = false) : n.chars ++ tail ≠ name := by
    obtain ⟨d, ds, hds, hd⟩ := n.chars_head
    rw [hds, hname]
    intro heq
    cases heq
    rw [hd] at hc
    cases hc
  obtain ⟨htake, hdrop⟩ := span_append tail n.unmarked htail
  obtain ⟨hwhole, hfraction⟩ := n.spans
  rw [readUnsigned?, if_neg (hhead _ 'i' _ rfl rfl), if_neg (hhead _ 'N' _ rfl rfl)]
  simp only [htake, hdrop, hwhole, hfraction, n.is_numeral, if_true]
  cases h with
  | none => rfl
  | marked h =>
    simp only [h, Option.map_some]
    rfl

end Numeral

/-! ## Decimals -/

namespace Decimal
variable (d : Decimal)

/-- The first digit with the others behind the point. -/
theorem exists_mantissa : ∃ n : Numeral, n.decimal = ⟨d.digits, d.exponent - d.leading⟩ ∧
    ∀ style, d.scientificChars style = n.chars ++ 'e' :: exponentChars style d.leading := by
  have hne : d.digitChars ≠ [] := Nat.toDigits_ne_nil
  obtain ⟨c, cs, hcs⟩ := List.exists_cons_of_ne_nil hne
  have hdigits (x : Char) (hx : x ∈ c :: cs) : x.isDigit = true := digit_chars_digits (hcs ▸ hx)
  refine ⟨⟨[c], cs, List.cons_ne_nil c [], ?_, ?_⟩, ?_, fun style => ?_⟩
  · exact fun x hx => hdigits x (List.mem_cons.mpr (.inl (List.mem_singleton.mp hx)))
  · exact fun x hx => hdigits x (List.mem_cons_of_mem c hx)
  · have hvalue := d.of_digit_chars
    rw [hcs] at hvalue
    have hleading : d.exponent - d.leading = -(cs.length : ℤ) := by
      rw [leading, hcs, List.length_cons]
      omega
    rw [Numeral.decimal, ofChars, List.singleton_append, hvalue, hleading]
  · rw [scientificChars, hcs, Numeral.chars]
    cases cs with
    | nil => rfl
    | cons x xs => rfl

/-- What is written of a decimal is a numeral, possibly with an exponent, and is read as the number nearest to
a decimal of the same value. -/
theorem read_unsigned (style : NumberStyle) : ∃ (n : Numeral) (tail : List Char) (d' : Decimal),
    d.chars style = n.chars ++ tail ∧ d'.value = d.value ∧
      readUnsigned? (d.chars style) = some (ofDecimal d') := by
  rw [chars]
  split_ifs
  · obtain ⟨n, hchars, hvalue⟩ := d.positional_numeral style.pointed
    have hread := n.read_unsigned .none
    rw [List.append_nil, add_zero] at hread
    exact ⟨n, [], n.decimal, by rw [List.append_nil, hchars], hvalue, hchars ▸ hread⟩
  · obtain ⟨n, hdecimal, hchars⟩ := d.exists_mantissa
    have hread := n.read_unsigned (.marked (read_exponent style d.leading))
    rw [← hchars, hdecimal, sub_add_cancel] at hread
    exact ⟨n, _, d, hchars style, rfl, hread⟩

end Decimal

/-! ## Numbers -/

namespace Number
open Float.Model Float.Model.UnpackedFloat

section Sizes
variable {x : Float}

/-- A number that is not finite is an infinity. -/
theorem parts_of_infinite (hx : x.isNaN = false) (h : x.isFinite = false) :
    parts x = .infinity (signOf x) := by
  change (parts x).isNaN = false at hx
  change (parts x).isFinite = false at h
  rw [parts_eq] at hx h ⊢
  split_ifs at hx h ⊢
  · rfl
  · cases hx
  · cases h
  · cases h

/-- The size of a number is the number or its opposite, as its sign says. -/
theorem abs_eq (hx : x.isNaN = false) : x.abs = if isNegative x then -x else x := by
  cases hfinite : x.isFinite with
  | true =>
    cases hn : isNegative x with
    | true => exact abs_of_negative hfinite hn
    | false => exact abs_of_nonnegative hfinite hn
  | false =>
    have hparts := parts_of_infinite hx hfinite
    cases hn : isNegative x with
    | true =>
      rw [if_pos rfl]
      apply eq_of_parts
      rw [parts_abs, parts_neg, hparts, sign_of_negative hn]
      rfl
    | false =>
      rw [if_neg Bool.false_ne_true]
      apply eq_of_parts
      rw [parts_abs, hparts, sign_of_nonnegative hn]
      rfl

theorem abs_of_infinite (hx : x.isNaN = false) (h : x.isFinite = false) : x.abs = 1.0 / 0.0 := by
  apply eq_of_parts
  rw [parts_abs, parts_of_infinite hx h]
  rfl

theorem is_nan_abs (x : Float) : x.abs.isNaN = x.isNaN := by
  change (parts x.abs).isNaN = (parts x).isNaN
  rw [parts_abs]
  cases parts x <;> rfl

theorem is_negative_abs (hx : x.isNaN = false) : isNegative x.abs = false := by
  cases hfinite : x.isFinite with
  | true => exact (abs_finite hfinite).2.1
  | false =>
    rw [abs_of_infinite hx hfinite]
    decide

/-- Below zero are the numbers with a minus sign, but for one of the zeros. -/
theorem below_zero_iff (hx : x.isNaN = false) : x < 0.0 ↔ isNegative x = true ∧ x ≠ -0.0 := by
  cases hfinite : x.isFinite with
  | true => exact lt_zero_iff hfinite
  | false =>
    have hparts := parts_of_infinite hx hfinite
    have hne : x ≠ -0.0 := by
      rintro rfl
      cases hfinite
    rw [lt_iff, parts_zero, hparts]
    cases hn : isNegative x with
    | true =>
      rw [sign_of_negative hn]
      exact iff_of_true rfl ⟨rfl, hne⟩
    | false =>
      rw [sign_of_nonnegative hn]
      exact iff_of_false Bool.false_ne_true fun h => Bool.false_ne_true h.1

theorem read_shortest (style : NumberStyle) (hx : x.isFinite = true) (hsign : isNegative x = false) :
    readUnsigned? ((magnitude x).shortest.chars style) = some x := by
  obtain ⟨n, tail, d, -, hvalue, hread⟩ := (magnitude x).shortest.read_unsigned style
  rw [hread]
  have hpos := sign_of_nonnegative hsign
  rcases finite_cases hx with ⟨hparts, hzero⟩ | ⟨hreg, hparts⟩ <;> rw [hpos] at hparts
  · have hdigits : d.digits = 0 := by
      rw [Magnitude.shortest, if_pos hzero, Decimal.value, Decimal.value, Nat.cast_zero, zero_mul,
        mul_eq_zero] at hvalue
      exact_mod_cast hvalue.resolve_right (by positivity)
    obtain ⟨digits, e⟩ := d
    subst hdigits
    rw [of_decimal_zero, eq_of_parts (hparts.trans parts_zero.symm)]
  · have hcell := Magnitude.shortest_cell hreg
    rw [← hvalue] at hcell
    rw [of_decimal_of_cell hreg hparts hcell]

end Sizes

/-! ## Signs of texts -/

/-- The text starts with a sign. -/
def StartsWithSign (cs : List Char) : Prop := ∃ c ∈ cs.head?, c = '+' ∨ c = '-'

/-- The text of a number is its minus sign, if it has one, and the text of its size, which has no sign and is
read as the size. -/
theorem exists_size_text (style : NumberStyle) {x : Float} (hx : x.isNaN = false) :
    ∃ size, chars style x = (if isNegative x then ['-'] else []) ++ size ∧ ¬StartsWithSign size ∧
      readUnsigned? size = some x.abs := by
  cases hfinite : x.isFinite with
  | true =>
    obtain ⟨habs, hsign, hmagnitude⟩ := abs_finite hfinite
    refine ⟨_, chars_finite style hfinite, ?_, ?_⟩
    · obtain ⟨n, tail, -, hchars, -⟩ := (magnitude x).shortest.read_unsigned style
      obtain ⟨c, cs, hcs, hc⟩ := n.chars_head
      rw [hchars, hcs]
      rintro ⟨c', hmem, h⟩
      cases hmem
      rcases h with rfl | rfl <;> cases hc
    · rw [← hmagnitude]
      exact read_shortest style habs hsign
  | false =>
    have hparts := parts_of_infinite hx hfinite
    have hinf : x.isInf = true := by
      change (parts x).isInf = true
      rw [hparts]
      rfl
    refine ⟨['i', 'n', 'f'], ?_, ?_, ?_⟩
    · rw [chars, hx, hinf]
      rfl
    · rintro ⟨c, hc, h⟩
      cases hc
      rcases h with h | h <;> cases h
    · rw [abs_of_infinite hx hfinite]
      rfl

theorem signed_iff (style : NumberStyle) {x : Float} (hx : x.isNaN = false) :
    StartsWithSign (chars style x) ↔ isNegative x = true := by
  obtain ⟨size, hchars, hsize, -⟩ := exists_size_text style hx
  rw [hchars]
  cases isNegative x with
  | true => exact iff_of_true ⟨'-', rfl, .inr rfl⟩ rfl
  | false => exact iff_of_false hsize Bool.false_ne_true

/-! ## Reading back -/

theorem read_of_unsigned {cs : List Char} (h : ¬StartsWithSign cs) : read? cs = readUnsigned? cs := by
  unfold read?
  split
  · exact absurd ⟨'-', rfl, .inr rfl⟩ h
  · rfl

/-- What is written of a number in any style is read back as it, bit for bit. -/
theorem read_chars (style : NumberStyle) (x : Float) : read? (chars style x) = some x := by
  cases hx : x.isNaN with
  | true =>
    have hnan : x = 0.0 / 0.0 := by
      rw [Float.isNaN_eq_decide_eq_nan, decide_eq_true_iff] at hx
      rw [hx]
      rfl
    rw [hnan]
    rfl
  | false =>
    obtain ⟨size, hchars, hsize, hread⟩ := exists_size_text style hx
    rw [hchars]
    cases hn : isNegative x with
    | true =>
      rw [if_pos rfl, List.singleton_append, read?, hread, abs_eq hx, hn, if_pos rfl, Option.map_some,
        float_neg_neg]
    | false =>
      rw [if_neg Bool.false_ne_true, List.nil_append, read_of_unsigned hsize, hread, abs_eq hx, hn,
        if_neg Bool.false_ne_true]

theorem read_display_text (x : Float) : read? (displayText x).toList = some x := by
  rw [displayText, String.toList_ofList]
  exact read_chars .displayed x

end Number
end Trinomial
