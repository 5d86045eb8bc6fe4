import Trinomial.Proofs.Complex.Conjugation
import Trinomial.Proofs.Root.Order

/-! # Pairs of roots

A list of two roots is sorted by one comparison. Two real numbers, and two conjugate complex numbers,
come out in the same order whichever stands first; of two conjugates the one with the positive
imaginary part comes first, because `+` is a smaller character than `-`.
-/
set_option autoImplicit false

namespace Trinomial

namespace Root

theorem sort_singleton (r : Root) : sort [r] = [r] := List.mergeSort_singleton r

theorem sort_pair (r s : Root) :
    sort [r, s] = if (r.order s).isLE then [r, s] else [s, r] := by
  simp [sort, List.mergeSort, List.MergeSort.Internal.splitInTwo, List.merge]

theorem sort_pair_comm {r s : Root} (h : r.order s = .eq → r = s) : sort [r, s] = sort [s, r] := by
  rw [sort_pair, sort_pair, order_swap s r]
  cases ho : r.order s with
  | lt => rfl
  | gt => rfl
  | eq =>
    rw [h ho]
    rfl

theorem sort_reals (x y : Float) : sort [real x, real y] = sort [real y, real x] := by
  apply sort_pair_comm
  intro h
  have hrank : Number.rank x = Number.rank y := compare_eq_iff_eq.mp h
  rw [Number.rank_injective hrank]

theorem sort_of_rank_le {x y : Float} (h : Number.rank x ≤ Number.rank y) :
    sort [real x, real y] = [real x, real y] := by
  have horder : (order (real x) (real y)).isLE = true :=
    Ordering.isLE_iff_ne_gt.mpr (compare_le_iff_le.mpr h)
  rw [sort_pair, if_pos horder]

/-- The numbers of a pair, sorted, ascend. -/
theorem sort_reals_ascending {x y : Float} (hx : x.isNaN = false) (hy : y.isNaN = false) :
    ∃ u v, sort [real x, real y] = [real u, real v] ∧ u.isNaN = false ∧ v.isNaN = false ∧ u ≤ v := by
  rcases le_total (Number.rank x) (Number.rank y) with h | h
  · exact ⟨x, y, sort_of_rank_le h, hx, hy, Number.le_of_rank_le hx hy h⟩
  · rw [sort_reals]
    exact ⟨y, x, sort_of_rank_le h, hy, hx, Number.le_of_rank_le hy hx h⟩

end Root

/-! ## Conjugates -/

namespace ComplexNumber
variable {z : ComplexNumber}

theorem text_of_negative (h : z.im < 0.0) :
    z.text = Number.displayText (unsignedIfNegligible z.re) ++
      (" - " ++ Number.displayText (-z.im)) ++ " * i" := by
  rw [text, if_pos h]

theorem text_of_nonnegative (h : ¬z.im < 0.0) :
    z.text = Number.displayText (unsignedIfNegligible z.re) ++
      (" + " ++ Number.displayText z.im) ++ " * i" := by
  rw [text, if_neg h]

theorem plus_lt_minus (p q r : String) : p ++ (" + " ++ q) ++ " * i" < p ++ (" - " ++ r) ++ " * i" := by
  have hsign : ('+' : Char) < '-' := by decide
  rw [String.lt_iff_toList_lt]
  simp only [String.toList_append, List.append_assoc]
  apply List.append_left_lt
  change ' ' :: '+' :: _ < ' ' :: '-' :: _
  exact List.cons_lt_cons_iff.mpr (.inr ⟨rfl, List.cons_lt_cons_iff.mpr (.inl hsign)⟩)

/-- Of two conjugates the one with the positive imaginary part has the smaller text. -/
theorem text_lt_conj (h : 0.0 < z.im) : z.text < z.conj.text := by
  have hnan := (Number.is_nan_of_lt h).2
  have hneg : z.conj.im < 0.0 := (Number.neg_lt_zero_iff hnan).mpr h
  rw [text_of_nonnegative (Number.not_lt_of_lt h), text_of_negative hneg]
  exact plus_lt_minus _ _ _

/-- The two zeros are told apart by their texts. -/
theorem text_ne_conj_of_zero (h : z.im = 0.0 ∨ z.im = -0.0) : z.text ≠ z.conj.text := by
  have hzeros : Number.displayText 0.0 ≠ Number.displayText (-0.0) := by decide
  have hsign : ¬z.im < 0.0 ∧ ¬z.conj.im < 0.0 := by
    change ¬z.im < 0.0 ∧ ¬-z.im < 0.0
    rcases h with h | h <;> rw [h] <;> decide
  intro ht
  rw [text_of_nonnegative hsign.1, text_of_nonnegative hsign.2] at ht
  simp only [conj, String.append_left_inj, String.append_right_inj] at ht
  rcases h with h | h <;> rw [h] at ht
  · exact hzeros ht
  · exact hzeros ht.symm

/-- Conjugates with one text are one number. -/
theorem eq_conj_of_text (h : z.text = z.conj.text) : z = z.conj := by
  cases hnan : z.im.isNaN with
  | true => rw [conj, Number.neg_of_nan hnan]
  | false =>
    rcases lt_trichotomy 0 (Number.ordinal z.im) with hpos | hzero | hneg
    · have hlt := text_lt_conj ((Number.zero_lt_iff_ordinal hnan).mpr hpos)
      exact absurd h (ne_of_lt hlt)
    · exact absurd h (text_ne_conj_of_zero (Number.zero_of_ordinal hnan hzero.symm))
    · have hpos : 0.0 < -z.im := by
        rw [Number.zero_lt_iff_ordinal (Number.is_nan_neg.trans hnan), Number.ordinal_neg]
        exact neg_pos.mpr hneg
      have hlt : z.conj.text < z.conj.conj.text := text_lt_conj hpos
      rw [conj_conj] at hlt
      exact absurd h.symm (ne_of_lt hlt)

end ComplexNumber

namespace Root

theorem sort_conjugates (z : ComplexNumber) :
    sort [complex z, complex z.conj] = sort [complex z.conj, complex z] := by
  apply sort_pair_comm
  intro h
  have htext : z.text = z.conj.text := Std.LawfulEqOrd.eq_of_compare h
  exact congrArg complex (ComplexNumber.eq_conj_of_text htext)

/-- The conjugate with the positive imaginary part comes first. -/
theorem sort_conjugates_of_pos {z : ComplexNumber} (h : 0.0 < z.im) :
    sort [complex z, complex z.conj] = [complex z, complex z.conj] := by
  have horder : order (complex z) (complex z.conj) = .lt :=
    compare_lt_iff_lt.mpr (ComplexNumber.text_lt_conj h)
  rw [sort_pair, horder]
  rfl

/-- Of two conjugates, sorted, the first one has the positive imaginary part unless both are zero. -/
theorem sort_conjugates_ascending {z : ComplexNumber} (hz : z.im.isNaN = false) :
    ∃ w : ComplexNumber, sort [complex z, complex z.conj] = [complex w, complex w.conj] ∧
      w.re = z.re ∧ ((w.im == 0.0) = false → 0.0 < w.im) := by
  have hconj : z.conj.im.isNaN = false := Number.is_nan_neg.trans hz
  have hplace : Number.ordinal z.conj.im = -Number.ordinal z.im := Number.ordinal_neg
  rcases lt_trichotomy 0 (Number.ordinal z.im) with hpos | hzero | hneg
  · have him : 0.0 < z.im := (Number.zero_lt_iff_ordinal hz).mpr hpos
    exact ⟨z, sort_conjugates_of_pos him, rfl, fun _ => him⟩
  · have hbeq : (z.im == 0.0) = true := (Number.beq_iff_ordinal hz rfl).mpr hzero.symm
    have hbeq' : (z.conj.im == 0.0) = true := by
      rw [Number.beq_iff_ordinal hconj rfl, hplace, ← hzero]
      rfl
    rw [sort_pair]
    split_ifs
    · exact ⟨z, rfl, rfl, fun h => by rw [hbeq] at h; cases h⟩
    · refine ⟨z.conj, ?_, rfl, fun h => by rw [hbeq'] at h; cases h⟩
      rw [ComplexNumber.conj_conj]
  · have him : 0.0 < z.conj.im := by
      rw [Number.zero_lt_iff_ordinal hconj, hplace]
      exact neg_pos.mpr hneg
    have hback : [complex z.conj, complex z] = [complex z.conj, complex z.conj.conj] := by
      rw [ComplexNumber.conj_conj]
    refine ⟨z.conj, ?_, rfl, fun _ => him⟩
    rw [sort_conjugates, hback]
    exact sort_conjugates_of_pos him

end Root
end Trinomial
