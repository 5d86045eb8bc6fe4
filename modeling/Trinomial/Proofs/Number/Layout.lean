import Trinomial.Proofs.Number.Displayed
import Trinomial.Proofs.Number.Texts
import Trinomial.Root

/-! # Layout of displayed numbers

The text of a finite number is a sign, if it has one, and a numeral with a point, or with an exponent that
carries its sign and at least two digits; zero and the numbers from `1e-4` up to below `1e16` in size are
those without an exponent. The text stands for a decimal that is rounded to the number, bit for bit, so no
two numbers have the same text.
-/
set_option autoImplicit false

namespace Trinomial
open Number (isDigits)

/-! ## The two layouts -/

/-- `digits.digits`, with its value. -/
inductive PlainText : List Char → ℚ → Prop
  | numeral (n : Numeral) (h : n.fraction ≠ []) : PlainText n.chars n.decimal.value

/-- A sign and at least two digits, with the value. -/
inductive SignedExponent : List Char → ℤ → Prop
  | plus {es : List Char} (h : isDigits es = true) (hlen : 2 ≤ es.length) :
    SignedExponent ('+' :: es) (Nat.ofDigitChars 10 es 0)
  | minus {es : List Char} (h : isDigits es = true) (hlen : 2 ≤ es.length) :
    SignedExponent ('-' :: es) (-(Nat.ofDigitChars 10 es 0 : ℤ))

/-- `digits(.digits)?e` and a signed exponent, with the value. -/
inductive ScientificText : List Char → ℚ → Prop
  | numeral (n : Numeral) {es : List Char} {e : ℤ} (h : SignedExponent es e) :
    ScientificText (n.chars ++ 'e' :: es) (n.decimal.value * 10 ^ e)

namespace Decimal
variable (d : Decimal)

theorem point_mem : '.' ∈ d.positionalChars true := by
  simp only [positionalChars, if_true]
  split_ifs <;> simp

theorem plain_text : PlainText (d.positionalChars true) d.value := by
  obtain ⟨n, hchars, hvalue⟩ := d.positional_numeral true
  have hpoint := d.point_mem
  rw [← hchars] at hpoint
  rw [← hchars, ← hvalue]
  refine .numeral n fun hnone => ?_
  rw [Numeral.chars, if_pos hnone] at hpoint
  exact absurd (n.whole_digits '.' hpoint) (by decide)

theorem signed_exponent (e : ℤ) : SignedExponent (exponentChars .displayed e) e := by
  obtain ⟨digits, hchars, hdigits, hvalue, hwidth⟩ := exists_exponent_digits .displayed e
  rw [hchars]
  split_ifs with hneg hplus
  · have he : e = -(Nat.ofDigitChars 10 digits 0 : ℤ) := by
      rw [hvalue]
      omega
    exact he ▸ .minus hdigits hwidth
  · have he : e = Nat.ofDigitChars 10 digits 0 := by
      rw [hvalue]
      omega
    exact he ▸ .plus hdigits hwidth
  · exact absurd rfl hplus

theorem scientific_text : ScientificText (d.scientificChars .displayed) d.value := by
  obtain ⟨n, hdecimal, hchars⟩ := d.exists_mantissa
  have hvalue : d.value = n.decimal.value * 10 ^ d.leading := by
    rw [hdecimal, value, value, mul_assoc, ← zpow_add₀ (by norm_num), sub_add_cancel]
  rw [hchars, hvalue]
  exact .numeral n (signed_exponent d.leading)

end Decimal

namespace Number
open Float.Model Float.Model.UnpackedFloat

/-! ## Which layout -/

section Finite
variable {x : Float} (hx : x.isFinite = true)
include hx

theorem positional_iff : NumberStyle.displayed.positional (magnitude x).shortest.leading = true ↔
    (x == 0.0) = true ∨ Positional x := by
  rcases finite_cases hx with ⟨hparts, hzero⟩ | ⟨hreg, hparts⟩
  · refine iff_of_true ?_ (.inl ?_)
    · rw [Magnitude.shortest, if_pos hzero]
      decide
    · change (parts x).beq (parts 0.0) = true
      rw [hparts, parts_zero]
      cases signOf x <;> rfl
  · obtain ⟨habs, -, hmagnitude⟩ := abs_finite hx
    have hpos : 0 < value x.abs := by
      have hsig : (0 : ℚ) < (magnitude x).significand := by exact_mod_cast hreg.pos
      have hparts' : parts x.abs =
          .finite .positive (magnitude x).significand (magnitude x).scale hreg.pos := by
        rw [parts_abs, hparts]
        rfl
      rw [value, hparts', value_of_positive]
      positivity
    have hne : ¬(x == 0.0) = true := by
      intro h
      obtain ⟨s, hs⟩ := zero_parts_of_beq h
      rw [hparts] at hs
      cases hs
    rw [or_iff_right hne, ← hmagnitude]
    exact displayed_positional_iff habs hpos

/-- The shortest decimal is rounded to the number, whatever its size. -/
theorem rounded_shortest : ofParts (roundTo (signOf x) (magnitude x).shortest.value) = x := by
  rcases finite_cases hx with ⟨hparts, hzero⟩ | ⟨hreg, hparts⟩
  · have hvalue : (magnitude x).shortest.value = 0 := by
      rw [Magnitude.shortest, if_pos hzero, Decimal.value, Nat.cast_zero, zero_mul]
    rw [hvalue, round_to_zero, ← hparts, of_parts_parts]
  · rw [Magnitude.round_to_of_cell hreg (Magnitude.shortest_cell hreg), ← hparts, of_parts_parts]

end Finite

/-! ## From the precise text -/

/-- The exponent with its sign and at least two digits. -/
def signExponent : List Char → List Char
  | '-' :: es => '-' :: (List.replicate (2 - es.length) '0' ++ es)
  | es => '+' :: (List.replicate (2 - es.length) '0' ++ es)

/-- What follows the first `e` of a text, if there is one, gets its sign and at least two digits. -/
def withSignedExponent (cs : List Char) : List Char :=
  match cs.dropWhile (· != 'e') with
  | [] => cs
  | _ :: es => cs.takeWhile (· != 'e') ++ 'e' :: signExponent es

theorem precise_exponent (e : ℤ) : Decimal.exponentChars .precise e =
    (if e < 0 then ['-'] else []) ++ Nat.toDigits 10 e.natAbs := by
  have hlength : 0 < (Nat.toDigits 10 e.natAbs).length := Nat.length_toDigits_pos
  have hpad : NumberStyle.precise.exponentWidth - (Nat.toDigits 10 e.natAbs).length = 0 :=
    Nat.sub_eq_zero_of_le hlength
  rw [Decimal.exponentChars, hpad, List.replicate_zero, List.append_nil]
  rfl

theorem sign_exponent_precise (e : ℤ) :
    signExponent (Decimal.exponentChars .precise e) = Decimal.exponentChars .displayed e := by
  have hdigits : ∀ es, Nat.toDigits 10 e.natAbs ≠ '-' :: es := by
    intro es h
    have hmem : '-' ∈ Nat.toDigits 10 e.natAbs := h ▸ List.mem_cons_self
    exact absurd (Nat.isDigit_of_mem_toDigits (by decide) (by decide) hmem) (by decide)
  rw [precise_exponent, Decimal.exponentChars, List.append_assoc]
  split_ifs with hneg hplus
  · rfl
  · rw [List.nil_append]
    unfold signExponent
    split
    · rename_i es heq
      exact absurd heq (hdigits es)
    · rfl
  · exact absurd rfl hplus

section Marks
variable {cs : List Char} (h : ∀ c ∈ cs, (c != 'e') = true)
include h

theorem with_signed_exponent_unmarked : withSignedExponent cs = cs := by
  obtain ⟨-, hdrop⟩ := Numeral.span_append [] h (by simp)
  rw [List.append_nil] at hdrop
  rw [withSignedExponent, hdrop]

theorem with_signed_exponent_marked (es : List Char) :
    withSignedExponent (cs ++ 'e' :: es) = cs ++ 'e' :: signExponent es := by
  obtain ⟨htake, hdrop⟩ := Numeral.span_append ('e' :: es) h (by simp)
  rw [withSignedExponent, hdrop, htake]

end Marks

theorem signed_numeral_unmarked (b : Bool) (n : Numeral) :
    ∀ c ∈ (if b then ['-'] else []) ++ n.chars, (c != 'e') = true := by
  intro c hc
  rcases List.mem_append.mp hc with hc | hc
  · cases b with
    | false => cases hc
    | true =>
      rw [List.mem_singleton.mp hc]
      rfl
  · exact n.unmarked c hc

/-- The displayed text is the precise text with its exponent, if it has one, signed and padded. -/
theorem displayed_of_precise {x : Float} (hx : x.isFinite = true) :
    displayText x = String.ofList (withSignedExponent (preciseText x).toList) := by
  rw [displayText, preciseText, String.toList_ofList, chars_finite _ hx, chars_finite _ hx,
    Decimal.chars, Decimal.chars]
  have hstyle : NumberStyle.displayed.positional = NumberStyle.precise.positional := rfl
  rw [hstyle]
  by_cases h : NumberStyle.precise.positional (magnitude x).shortest.leading = true
  · rw [if_pos h, if_pos h]
    obtain ⟨n, hchars, -⟩ := (magnitude x).shortest.positional_numeral true
    have hmark := signed_numeral_unmarked (isNegative x) n
    rw [hchars] at hmark
    exact congrArg String.ofList (with_signed_exponent_unmarked hmark).symm
  · rw [if_neg h, if_neg h]
    obtain ⟨n, -, hchars⟩ := (magnitude x).shortest.exists_mantissa
    have hmark := signed_numeral_unmarked (isNegative x) n
    rw [hchars, hchars, ← List.append_assoc, ← List.append_assoc, with_signed_exponent_marked hmark,
      sign_exponent_precise]

/-! ## Displayed numbers -/

/-- The text of a number is the precise text with its exponent signed: a sign, if the number has one, and the
text of its size, laid out with an exponent or without as its size says. The decimal that this stands for is
rounded to the number. -/
structure Displays (x : Float) (size : List Char) (q : ℚ) : Prop where
  precise : displayText x = String.ofList (withSignedExponent (preciseText x).toList)
  text : displayText x = String.ofList ((if isNegative x then ['-'] else []) ++ size)
  plain : (x == 0.0) = true ∨ Positional x → PlainText size q
  scientific : ¬((x == 0.0) = true ∨ Positional x) → ScientificText size q
  rounded : ofParts (roundTo (signOf x) q) = x
  read : read? (displayText x).toList = some x

theorem displays_shortest {x : Float} (hx : x.isFinite = true) :
    Displays x ((magnitude x).shortest.chars .displayed) (magnitude x).shortest.value where
  precise := displayed_of_precise hx
  text := congrArg String.ofList (chars_finite _ hx)
  plain h := by
    rw [Decimal.chars, if_pos ((positional_iff hx).mpr h)]
    exact Decimal.plain_text _
  scientific h := by
    rw [Decimal.chars, if_neg (mt (positional_iff hx).mp h)]
    exact Decimal.scientific_text _
  rounded := rounded_shortest hx
  read := read_display_text x

theorem display_injective {x y : Float} (h : displayText x = displayText y) : x = y := by
  have hx := read_display_text x
  rw [h, read_display_text] at hx
  exact (Option.some.inj hx).symm

/-- Displayed numbers are laid out by their size, read back bit for bit, and told apart by their texts. -/
theorem display_faithful :
    (∀ x : Float, x.isFinite = true → ∃ size q, Displays x size q) ∧
    (∀ x y : Float, x.isFinite = true → y.isFinite = true → x.toBits ≠ y.toBits →
      displayText x ≠ displayText y) ∧
    ∀ x y : Float, Root.real x ≠ Root.real y → (Root.real x).text ≠ (Root.real y).text := by
  refine ⟨fun x hx => ⟨_, _, displays_shortest hx⟩, fun x y _ _ hne h => ?_, fun x y hne h => ?_⟩
  · exact hne (congrArg Float.toBits (display_injective h))
  · exact hne (congrArg Root.real (display_injective h))

theorem display_faithful_samples :
    ((-5e-6 : Float).isFinite = true ∧ ∃ size q, Displays (-5e-6) size q) ∧
      displayText 1.5e-123 ≠ displayText 1e16 ∧ (Root.real 0.0).text ≠ (Root.real (-0.0)).text :=
  ⟨⟨by rfl, display_faithful.1 _ (by rfl)⟩,
    display_faithful.2.1 _ _ (by decide +kernel) (by rfl) (by decide +kernel),
    display_faithful.2.2 _ _ (by decide)⟩

example : displayText (-5e-6) = "-5e-06" ∧ displayText 1e16 = "1e+16" ∧ displayText 0.0001 = "0.0001" := by
  decide +kernel

end Number
end Trinomial
