import Trinomial.Complex.Basic
import Trinomial.Proofs.Number.Texts

/-! # Displayed complex numbers

The text of a complex number is the real part, a mark and the imaginary part. The mark carries the sign of the
imaginary part, and both parts are read back from the text, bit for bit. The mark is chosen by comparison with
zero, which does not see the sign of `-0.0`: this one number stands with its own sign behind the mark.
-/
set_option autoImplicit false

namespace Trinomial

/-! ## Parts -/

namespace Number

theorem read_display (x : Float) : read? (displayText x).toList = some x := by
  rw [displayText, String.toList_ofList, read_chars]

theorem display_signed_iff {x : Float} (hx : x.isNaN = false) :
    StartsWithSign (displayText x).toList ↔ isNegative x = true := by
  rw [displayText, String.toList_ofList, signed_iff _ hx]

theorem display_abs_unsigned {x : Float} (hx : x.isNaN = false) :
    ¬StartsWithSign (displayText x.abs).toList := by
  rw [display_signed_iff ((is_nan_abs x).trans hx), is_negative_abs hx]
  exact Bool.false_ne_true

/-- With a minus sign put in front the text of a size is read as the opposite number. -/
theorem read_minus_display {x : Float} (hx : x.isNaN = false) :
    read? ('-' :: (displayText x.abs).toList) = some (-x.abs) := by
  have hread := read_display x.abs
  rw [read_of_unsigned (display_abs_unsigned hx)] at hread
  rw [read?, hread, Option.map_some]

end Number

/-! ## The whole text -/

namespace ComplexNumber
open Number (StartsWithSign)

/-- The text of `z` consists of these parts: the mark is a minus for a negative imaginary part, what is
negligible or comes behind the mark has no sign of its own, but for `-0.0`, and the parts are read back. -/
structure Shown (z : ComplexNumber) (re mark im : String) : Prop where
  text_eq : z.text = re ++ mark ++ im ++ " * i"
  mark_cases : mark = " + " ∨ mark = " - "
  minus_iff : mark = " - " ↔ z.im < 0.0
  re_unsigned : Number.isNegligible z.re = true → ¬StartsWithSign re.toList
  im_signed_iff : StartsWithSign im.toList ↔ z.im = -0.0
  read_re : Number.read? re.toList = some (if Number.isNegligible z.re then z.re.abs else z.re)
  read_im : Number.read? ((if mark = " - " then ['-'] else []) ++ im.toList) = some z.im

variable {z : ComplexNumber}

theorem re_unsigned (hre : z.re.isNaN = false) (h : Number.isNegligible z.re = true) :
    ¬StartsWithSign (Number.displayText (unsignedIfNegligible z.re)).toList := by
  rw [unsignedIfNegligible, if_pos h]
  exact Number.display_abs_unsigned hre

theorem shown_negative (hre : z.re.isNaN = false) (him : z.im.isNaN = false) (h : z.im < 0.0) :
    z.Shown (Number.displayText (unsignedIfNegligible z.re)) " - " (Number.displayText (-z.im)) := by
  obtain ⟨hsign, hne⟩ := (Number.below_zero_iff him).mp h
  have habs : z.im.abs = -z.im := by rw [Number.abs_eq him, if_pos hsign]
  have hunsigned := Number.display_abs_unsigned him
  have hread := Number.read_minus_display him
  rw [habs] at hunsigned hread
  rw [Number.float_neg_neg] at hread
  refine ⟨?_, .inr rfl, iff_of_true rfl h, re_unsigned hre, iff_of_false hunsigned hne,
    Number.read_display _, ?_⟩
  · rw [text, if_pos h]
    simp only [String.append_assoc]
  · rw [if_pos rfl]
    exact hread

theorem shown_nonnegative (hre : z.re.isNaN = false) (him : z.im.isNaN = false) (h : ¬z.im < 0.0) :
    z.Shown (Number.displayText (unsignedIfNegligible z.re)) " + " (Number.displayText z.im) := by
  have hmark : ¬" + " = " - " := by decide
  refine ⟨?_, .inl rfl, iff_of_false hmark h, re_unsigned hre, ?_, Number.read_display _, ?_⟩
  · rw [text, if_neg h]
    simp only [String.append_assoc]
  · rw [Number.display_signed_iff him]
    constructor
    · exact fun hsign => by_contra fun hne => h ((Number.below_zero_iff him).mpr ⟨hsign, hne⟩)
    · intro hzero
      rw [hzero]
      decide
  · rw [if_neg hmark]
    exact Number.read_display z.im

/-- A complex number of two numbers is shown with one mark that carries the sign of the imaginary part, and with
no other sign than that of a real part that counts, unless the imaginary part is `-0.0`. Both parts are read
back from its text. -/
theorem text_reads_back (hre : z.re.isNaN = false) (him : z.im.isNaN = false) :
    ∃ re mark im, z.Shown re mark im := by
  by_cases h : z.im < 0.0
  · exact ⟨_, _, _, shown_negative hre him h⟩
  · exact ⟨_, _, _, shown_nonnegative hre him h⟩

theorem text_reads_back_sample : (-5e-12 : Float).isNaN = false ∧ (-1.5e-123 : Float).isNaN = false ∧
    text ⟨-5e-12, -1.5e-123⟩ = "5e-12 - 1.5e-123 * i" ∧
    ∃ re mark im, Shown ⟨-5e-12, -1.5e-123⟩ re mark im := by
  have hre : (-5e-12 : Float).isNaN = false := by decide
  have him : (-1.5e-123 : Float).isNaN = false := by decide +kernel
  have htext : text ⟨-5e-12, -1.5e-123⟩ = "5e-12 - 1.5e-123 * i" := by decide +kernel
  exact ⟨hre, him, htext, text_reads_back (z := ⟨-5e-12, -1.5e-123⟩) hre him⟩

/-- The only mark in the text of the conjugate of `3.0` is the plus sign. -/
theorem mark_in_sample {re mark rest : List Char}
    (h : re ++ (mark ++ rest) = "3.0 + -0.0 * i".toList)
    (hmark : mark = [' ', '+', ' '] ∨ mark = [' ', '-', ' ']) : rest = "-0.0 * i".toList := by
  have hplaces : ∀ k < 15, ∀ m : List Char, m = [' ', '+', ' '] ∨ m = [' ', '-', ' '] →
      m.isPrefixOf ("3.0 + -0.0 * i".toList.drop k) = true → k = 3 ∧ m.length = 3 := by
    rintro k hk m (rfl | rfl)
    · revert k
      decide
    · revert k
      decide
  have hlength : re.length < 15 := by
    have hle := congrArg List.length h
    rw [List.length_append] at hle
    have htext : "3.0 + -0.0 * i".toList.length = 14 := by decide
    omega
  have hdrop : "3.0 + -0.0 * i".toList.drop re.length = mark ++ rest := by
    rw [← h, List.drop_left]
  have hprefix : mark.isPrefixOf ("3.0 + -0.0 * i".toList.drop re.length) = true := by
    rw [hdrop, List.isPrefixOf_iff_prefix]
    exact List.prefix_append mark rest
  obtain ⟨hre, hthree⟩ := hplaces re.length hlength mark hmark hprefix
  have hrest := congrArg (List.drop 3) hdrop
  rw [hre, ← hthree, List.drop_left, hthree] at hrest
  rw [← hrest]
  decide

/-- The conjugate of a real number has the imaginary part `-0.0`: however its text is taken apart, the
imaginary part has a sign behind the mark. -/
theorem conjugate_of_real_signed_twice : (conj (ofReal 3.0)).text = "3.0 + -0.0 * i" ∧
    ¬∃ re mark im, (conj (ofReal 3.0)).text = re ++ mark ++ im ++ " * i" ∧
      (mark = " + " ∨ mark = " - ") ∧ ¬StartsWithSign im.toList := by
  have htext : (conj (ofReal 3.0)).text = "3.0 + -0.0 * i" := by decide +kernel
  refine ⟨htext, ?_⟩
  rintro ⟨re, mark, im, heq, hmark, hunsigned⟩
  have hchars := congrArg String.toList (htext.symm.trans heq)
  rw [String.toList_append, String.toList_append, String.toList_append, List.append_assoc,
    List.append_assoc] at hchars
  have hrest := mark_in_sample hchars.symm (hmark.imp (fun h => by rw [h]; rfl) fun h => by rw [h]; rfl)
  cases him : im.toList with
  | nil =>
    rw [him] at hrest
    exact absurd hrest (by decide)
  | cons c cs =>
    rw [him, List.cons_append] at hrest
    have hc : c = '-' := (List.cons.inj (hrest.trans (by rfl : _ = '-' :: "0.0 * i".toList))).1
    exact hunsigned (by rw [him, hc]; exact ⟨'-', rfl, .inr rfl⟩)

end ComplexNumber
end Trinomial
