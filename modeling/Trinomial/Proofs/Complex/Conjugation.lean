import Trinomial.Complex.Division
import Trinomial.Proofs.Number.Negation

/-! # Conjugation

Every operation on complex numbers commutes with conjugation although each of its steps is rounded: rounding
does not see signs, and a formula is odd or even in the imaginary parts as it should be. Only the sign of a zero
may differ, where a sum cancels. Sizes are the same bit for bit, and so are sums and products in either order.
-/
set_option autoImplicit false

namespace Trinomial
open Float.Model Float.Model.UnpackedFloat

/-! ## Equal numbers -/

namespace Number
open Solution (withoutNegativeZero)

/-- Equal as numbers, or both of them none. -/
def Same (x y : Float) : Prop := (x == y) = true ∨ x.isNaN = true ∧ y.isNaN = true

theorem same_refl (x : Float) : Same x x := by
  cases hx : x.isNaN with
  | true => exact .inr ⟨hx, hx⟩
  | false => exact .inl (beq_iff.mpr ⟨hx, hx, rfl⟩)

/-- Numbers that differ in the sign of zero at most are equal. -/
theorem same_of_settled {x y : Float} (h : withoutNegativeZero x = withoutNegativeZero y) : Same x y := by
  by_cases hx : x = -0.0
  · by_cases hy : y = -0.0
    · rw [hx, hy]
      exact same_refl _
    · rw [without_negative_zero_eq hy, hx] at h
      rw [hx, ← h]
      exact .inl (by decide)
  · by_cases hy : y = -0.0
    · rw [without_negative_zero_eq hx, hy] at h
      rw [hy, h]
      exact .inl (by decide)
    · rw [without_negative_zero_eq hx, without_negative_zero_eq hy] at h
      rw [h]
      exact same_refl y

theorem float_mul_comm (x y : Float) : x * y = y * x := by
  have hsign (s t : Sign) : s * t = t * s := by cases s <;> cases t <;> rfl
  rw [mul_eq, mul_eq]
  cases parts x <;> cases parts y <;>
    simp only [UnpackedFloat.mul, hsign, Nat.mul_comm, add_comm]

/-- The difference of opposite numbers is the opposite difference, as far as a function can tell that does not
see the sign of zero. -/
theorem Blind.neg_sub_neg {β : Type} {f : Float → β} (hf : Blind f) (x y : Float) :
    f (-x - -y) = f (-(x - y)) := by
  rw [float_sub_eq, float_sub_eq]
  exact hf.neg_add_neg x (-y)

end Number

/-! ## Operations on conjugates -/

namespace ComplexNumber
open Number (blind_without_negative_zero)

/-- Both parts are equal. -/
structure Same (z w : ComplexNumber) : Prop where
  re : Number.Same z.re w.re
  im : Number.Same z.im w.im

variable (z w : ComplexNumber)

theorem conj_conj : conj (conj z) = z := by
  rw [conj, conj, Number.float_neg_neg]

theorem conj_add : Same (conj (z + w)) (conj z + conj w) where
  re := Number.same_refl _
  im := Number.same_of_settled (blind_without_negative_zero.neg_add_neg z.im w.im).symm

theorem conj_sub : Same (conj (z - w)) (conj z - conj w) where
  re := Number.same_refl _
  im := Number.same_of_settled (blind_without_negative_zero.neg_sub_neg z.im w.im).symm

theorem conj_mul : Same (conj (z * w)) (conj z * conj w) where
  re := by
    change Number.Same (z.re * w.re - z.im * w.im) (z.re * w.re - -z.im * -w.im)
    rw [Number.float_neg_mul_neg]
    exact Number.same_refl _
  im := by
    change Number.Same (-(z.re * w.im + w.re * z.im)) (z.re * -w.im + w.re * -z.im)
    rw [Number.float_mul_neg, Number.float_mul_neg]
    exact Number.same_of_settled (blind_without_negative_zero.neg_add_neg _ _).symm

theorem norm_sq_conj : (conj z).normSq = z.normSq := by
  rw [normSq, conj, Number.float_neg_mul_neg, normSq]

theorem modulus_conj : (conj z).modulus = z.modulus := by
  rw [modulus, norm_sq_conj, modulus]

/-- The quotient of the conjugates, part by part. -/
theorem conj_quotient (d : Float) :
    Same ⟨(z.re * w.re + -z.im * -w.im) / d, (-z.im * w.re - z.re * -w.im) / d⟩
      (conj ⟨(z.re * w.re + z.im * w.im) / d, (z.im * w.re - z.re * w.im) / d⟩) where
  re := by
    rw [Number.float_neg_mul_neg]
    exact Number.same_refl _
  im := by
    have hsettled :=
      (blind_without_negative_zero.div d).neg_sub_neg (z.im * w.re) (z.re * w.im)
    apply Number.same_of_settled
    dsimp only [conj] at hsettled ⊢
    rw [Number.float_neg_mul, Number.float_mul_neg, ← Number.float_neg_div]
    exact hsettled

/-- Conjugates are divided or refused as the numbers themselves. -/
theorem div_conj :
    (div z w = .error (.zeroDivision (.complex w)) ∧
      div (conj z) (conj w) = .error (.zeroDivision (.complex (conj w)))) ∨
    ∃ q r, div z w = .ok q ∧ div (conj z) (conj w) = .ok r ∧ Same r (conj q) := by
  rw [div, div, norm_sq_conj]
  split_ifs
  · exact .inl ⟨rfl, rfl⟩
  · exact .inr ⟨_, _, rfl, rfl, conj_quotient z w w.normSq⟩

theorem add_swap : z + w = w + z := by
  change add z w = add w z
  rw [add, Number.float_add_comm z.re, Number.float_add_comm z.im, add]

theorem mul_swap : z * w = w * z := by
  change mul z w = mul w z
  rw [mul, Number.float_mul_comm z.re, Number.float_mul_comm z.im, Number.float_add_comm, mul]

/-- Conjugation is an automorphism of the rounded operations. -/
theorem conjugation_is_automorphism :
    Same (conj (z + w)) (conj z + conj w) ∧ Same (conj (z - w)) (conj z - conj w) ∧
      Same (conj (z * w)) (conj z * conj w) ∧ conj (conj z) = z ∧
      ((div z w = .error (.zeroDivision (.complex w)) ∧
          div (conj z) (conj w) = .error (.zeroDivision (.complex (conj w)))) ∨
        ∃ q r, div z w = .ok q ∧ div (conj z) (conj w) = .ok r ∧ Same r (conj q)) ∧
      (conj z).normSq = z.normSq ∧ (conj z).modulus = z.modulus ∧ z * w = w * z ∧ z + w = w + z :=
  ⟨conj_add z w, conj_sub z w, conj_mul z w, conj_conj z, div_conj z w, norm_sq_conj z, modulus_conj z,
    mul_swap z w, add_swap z w⟩

end ComplexNumber
end Trinomial
