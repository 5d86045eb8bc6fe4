import Trinomial.Proofs.Number.Approach

/-! # Newton's iteration ends

The first step leads to the neighbours of the root or above them, to at most `2 ^ 566` units of the last
place. From there on each step shrinks the distance or stays, until a neighbour of the root is met; two
more steps then are enough. All that takes fewer steps than the iteration has.
-/
set_option autoImplicit false

namespace Trinomial.Number

/-! ## Enough steps -/

/-- The iteration ends within so many steps. -/
def Ends (x : Float) (steps : ℕ) (p : Float) : Prop := ∃ r, newton x steps p = some r

section Iteration
variable {x p r : Float} {steps : ℕ}

theorem newton_mono {more : ℕ} (h : newton x steps p = some r) (hle : steps ≤ more) :
    newton x more p = some r := by
  induction steps generalizing p more with
  | zero => cases h
  | succ steps ih =>
    obtain ⟨more, rfl⟩ := Nat.exists_eq_add_of_le' (Nat.le_of_add_left_le hle)
    rw [newton] at h ⊢
    split_ifs at h ⊢ with hstop
    · exact h
    · exact ih h (Nat.le_of_succ_le_succ hle)

theorem Ends.mono {more : ℕ} (h : Ends x steps p) (hle : steps ≤ more) : Ends x more p := by
  obtain ⟨r, hr⟩ := h
  exact ⟨r, newton_mono hr hle⟩

theorem Ends.of_step (h : Ends x steps (newtonStep x p)) : Ends x (steps + 1) p := by
  rw [Ends, newton]
  split_ifs
  · exact ⟨_, rfl⟩
  · exact h

end Iteration

/-! ## Near to the root and far from it -/

section Approach
variable {x p : Float} {b : Bracket (value x)}

theorem Approach.step_neighbour (h : Approach b p) (hp : value p ≤ b.high) :
    value (newtonStep x p) = b.low ∨ value (newtonStep x p) = b.high := by
  apply b.eq_low_or_high h.step.denotes h.le_step
  rcases b.eq_low_or_high h.denotes h.ge hp with hlow | hhigh
  · exact h.step_le_high hlow
  · exact (h.step_le hhigh.ge).trans hp

theorem Approach.ends_of_fixed (h : Approach b p) (hstep : value (newtonStep x p) = value p) :
    Ends x 1 p := by
  rw [Ends, newton, if_pos (stops_of_fixed h.finite ⟨h.step.finite, hstep⟩)]
  exact ⟨_, rfl⟩

/-- From a neighbour of the root two steps are enough: the second would have to lead back. -/
theorem ends_near (h : Approach b p) (hp : value p ≤ b.high) : Ends x 2 p := by
  have hstep := h.step_neighbour hp
  have hagain := h.step.step_neighbour (hstep.elim (fun he => he.trans_le b.low_le_high) le_of_eq)
  rcases b.eq_low_or_high h.denotes h.ge hp with hlow | hhigh
  · rcases hstep with hstay | hup
    · exact (h.ends_of_fixed (hstay.trans hlow.symm)).mono one_le_two
    · have hstay := hagain.resolve_left (Approach.no_cycle h h.step hlow hup hup)
      exact (h.step.ends_of_fixed (hstay.trans hup.symm)).of_step
  · rcases hstep with hdown | hstay
    · have hstay := hagain.resolve_right
        fun hup => Approach.no_cycle h.step h hdown hhigh hup hdown
      exact (h.step.ends_of_fixed (hstay.trans hdown.symm)).of_step
    · exact (h.ends_of_fixed (hstay.trans hhigh.symm)).mono one_le_two

/-- The iteration ends when there are enough steps to come within a unit of the neighbours. -/
theorem ends_of_shrinking (steps : ℕ) (h : Approach b p)
    (hsteps : (value p - b.high) * (4 / 5) ^ steps < b.unit) : Ends x (steps + 2) p := by
  induction steps generalizing p with
  | zero =>
    apply ends_near h
    by_contra hgt
    rw [not_le] at hgt
    obtain ⟨y, hy⟩ := b.exists_high
    linarith [b.add_unit_le hy h.denotes b.low_le_high hgt]
  | succ steps ih =>
    rcases le_or_gt (value p) b.high with hnear | hfar
    · exact (ends_near h hnear).mono (by omega)
    rcases (h.step_le hfar.le).eq_or_lt with hstay | hmoved
    · exact (h.ends_of_fixed hstay).mono (by omega)
    · apply Ends.of_step
      refine ih h.step (lt_of_le_of_lt ?_ hsteps)
      calc (value (newtonStep x p) - b.high) * (4 / 5) ^ steps
          ≤ 4 / 5 * (value p - b.high) * (4 / 5) ^ steps :=
            mul_le_mul_of_nonneg_right (h.step_far hfar hmoved) (by positivity)
        _ = (value p - b.high) * (4 / 5) ^ (steps + 1) := by ring

end Approach

/-! ## The first step -/

section First
variable {x : Float} (b : Bracket (value x)) (hx : x.isFinite = true) (hlo : rangeBottom ≤ value x)
include hx hlo

/-- The first cofactor is 2. -/
theorem first_cofactor : Denotes (x / (x / 2.0)) 2 := by
  have hpos := range_bottom_pos.trans_le hlo
  have hdenotes : Denotes x (value x) := ⟨hx, rfl⟩
  have hquot : value x / (value x / 2) = 2 := by field_simp
  have hcofactor := hdenotes.div (hdenotes.half hlo) (by positivity) (by
    rw [hquot, abs_of_pos two_pos]
    exact lt_range_top_of_le (by norm_num))
  rw [hquot] at hcofactor
  exact hcofactor.exact denotes_two

theorem first_sum : IsNearest (x / 2.0 + x / (x / 2.0)) (value x / 2 + 2) := by
  have hpos := range_bottom_pos.trans_le hlo
  have hdenotes : Denotes x (value x) := ⟨hx, rfl⟩
  apply (hdenotes.half hlo).add (first_cofactor hx hlo)
  rw [abs_of_pos (by positivity)]
  exact hdenotes.half_lt_range hlo

theorem first_sum_le : value (x / 2.0 + x / (x / 2.0)) ≤ rangeTop := by
  obtain ⟨y, hy⟩ := exists_range_top
  have hdenotes : Denotes x (value x) := ⟨hx, rfl⟩
  exact (first_sum hx hlo).le_of_le hy (hdenotes.half_lt_range hlo).le

theorem le_first_sum : 2 * b.low ≤ value (x / 2.0 + x / (x / 2.0)) := by
  have hpos := range_bottom_pos.trans_le hlo
  obtain ⟨y, hy⟩ := b.exists_low
  obtain ⟨z, hz⟩ := b.exists_double hy le_rfl b.double_low_le
  apply (first_sum hx hlo).ge hz
  rw [← pow_le_pow_iff_left₀ (by linarith [b.low_pos]) (by positivity) two_ne_zero]
  linarith [sq_nonneg (value x / 2 - 2), b.low_sq_le]

theorem first_step_denotes :
    Denotes (newtonStep x (x / 2.0)) (value (x / 2.0 + x / (x / 2.0)) / 2) := by
  have hpos := range_bottom_pos.trans_le hlo
  have htwo := (first_sum hx hlo).ge denotes_two (by linarith)
  exact Denotes.half ⟨(first_sum hx hlo).finite, rfl⟩ (range_bottom_le_of_one (by linarith))

/-- After one step the estimate is not below the neighbours. -/
theorem first_approach : Approach b (newtonStep x (x / 2.0)) := by
  have hstep := first_step_denotes hx hlo
  refine ⟨hx, hstep.finite, ?_, ?_⟩ <;> rw [hstep.value_eq]
  · linarith [le_first_sum b hx hlo]
  · linarith [first_sum_le hx hlo]

theorem first_step_le : value (newtonStep x (x / 2.0)) ≤ 2 ^ (566 : ℤ) * b.unit := by
  have hsum := first_sum hx hlo
  have hpos := range_bottom_pos.trans_le hlo
  have hunit := b.unit_pos
  have hradicand : value x ≤ 2 ^ (566 : ℤ) * b.unit := by
    have hsplit : (2 : ℚ) ^ (513 + 53 : ℤ) = 2 ^ (513 : ℤ) * 2 ^ (53 : ℤ) := zpow_add₀ two_ne_zero _ _
    have hhigh := b.low_pos.le.trans b.low_le_high
    calc value x ≤ b.high * b.high := b.le_high_mul
      _ ≤ 2 ^ (513 : ℤ) * (2 ^ 53 * b.unit) :=
          mul_le_mul b.high_le_power b.high_le hhigh (by positivity)
      _ = 2 ^ (566 : ℤ) * b.unit := by
          rw [← mul_assoc]
          exact congrArg (· * b.unit) hsplit.symm
  have hfour : 4 ≤ 2 ^ (566 : ℤ) * b.unit := by
    have hsmall : (2 : ℚ) ^ (2 : ℤ) ≤ 2 ^ (566 + b.scale : ℤ) :=
      zpow_le_zpow_right₀ (by norm_num) (by linarith [b.scale_ge])
    rw [zpow_add₀ two_ne_zero] at hsmall
    exact le_of_eq_of_le (by norm_num) hsmall
  have herror := abs_le.mp (hsum.error_le (range_bottom_le_of_one (by linarith))
    (Denotes.half_lt_range ⟨hx, rfl⟩ hlo))
  rw [(first_step_denotes hx hlo).value_eq]
  generalize (2 : ℚ) ^ (566 : ℤ) * b.unit = far at hradicand hfour ⊢
  linarith [herror.1]

end First

/-! ## Convergence -/

/-- So many shrinking steps outweigh the largest first distance. -/
theorem shrinking_enough : (2 : ℚ) ^ (566 : ℤ) * ((4 / 5) ^ 28) ^ 63 < 1 := by
  have hblock : (4 / 5 : ℚ) ^ 28 ≤ 2 ^ (-9 : ℤ) := by norm_num
  calc (2 : ℚ) ^ (566 : ℤ) * ((4 / 5) ^ 28) ^ 63
      ≤ 2 ^ (566 : ℤ) * (2 ^ (-9 : ℤ)) ^ 63 := by gcongr
    _ = 2 ^ (566 + -9 * (63 : ℕ) : ℤ) := by
      rw [← zpow_natCast, ← zpow_mul, ← zpow_add₀ two_ne_zero]
    _ < 1 := zpow_lt_one_of_neg₀ (by norm_num) (by norm_num)

theorem newton_ends {x : Float} (hx : x.isFinite = true) (hlo : 2 ^ (-40 : ℤ) ≤ value x) :
    Ends x (28 * 63 + 2 + 1) (x / 2.0) := by
  have hbottom := range_bottom_le hlo (by norm_num)
  obtain ⟨b⟩ := exists_bracket hlo (by linarith [Denotes.half_lt_range ⟨hx, rfl⟩ hbottom])
  have hhigh := b.low_pos.trans_le b.low_le_high
  apply Ends.of_step
  apply ends_of_shrinking (28 * 63) (first_approach b hx hbottom)
  rw [pow_mul]
  calc (value (newtonStep x (x / 2.0)) - b.high) * ((4 / 5) ^ 28) ^ 63
      ≤ 2 ^ (566 : ℤ) * b.unit * ((4 / 5) ^ 28) ^ 63 :=
        mul_le_mul_of_nonneg_right (by linarith [first_step_le b hx hbottom]) (by positivity)
    _ = 2 ^ (566 : ℤ) * ((4 / 5) ^ 28) ^ 63 * b.unit := by ring
    _ < 1 * b.unit := mul_lt_mul_of_pos_right shrinking_enough b.unit_pos
    _ = b.unit := one_mul _

/-- What is neither negative nor negligible is not too small. -/
theorem value_ge_of_counts {x : Float} (hx : x.isFinite = true) (hnonneg : ¬x < 0.0)
    (hcounts : isNegligible x = false) : 2 ^ (-40 : ℤ) ≤ value x := by
  have hdenotes : Denotes x (value x) := ⟨hx, rfl⟩
  rw [hdenotes.lt_iff denotes_zero_point, not_lt] at hnonneg
  rw [counts_iff hdenotes, abs_of_nonneg hnonneg] at hcounts
  exact tolerance_value.1.trans hcounts

/-- The square root of every finite number from zero on is found, and of every negligible number; the
iteration never uses up its steps. -/
theorem square_root_converges {x : Float}
    (h : (x.isFinite = true ∧ 0.0 ≤ x) ∨ isNegligible x = true) :
    ∃ r, squareRoot x = .ok r ∧
      (isNegligible x = false → ∃ steps < rootSteps, newton x steps (x / 2.0) = some r) := by
  cases hcounts : isNegligible x with
  | true =>
    refine ⟨0.0, ?_, nofun⟩
    rw [squareRoot, hcounts, if_pos rfl]
  | false =>
    obtain ⟨hx, hge⟩ := h.resolve_right (by rw [hcounts]; exact Bool.false_ne_true)
    have hnonneg := not_lt_of_le hge
    obtain ⟨r, hr⟩ := newton_ends hx (value_ge_of_counts hx hnonneg hcounts)
    refine ⟨r, ?_, fun _ => ⟨_, by decide, hr⟩⟩
    rw [squareRoot, hcounts, if_neg Bool.false_ne_true, if_neg hnonneg, newton_mono hr (by decide)]

theorem largest_square_root_converges :
    ((1.7976931348623157e308 : Float).isFinite = true ∧ 0.0 ≤ (1.7976931348623157e308 : Float)) ∧
    ∃ r, squareRoot 1.7976931348623157e308 = .ok r ∧
      (isNegligible 1.7976931348623157e308 = false → ∃ steps < rootSteps,
        newton 1.7976931348623157e308 steps (1.7976931348623157e308 / 2.0) = some r) := by
  have hlargest : (1.7976931348623157e308 : Float).isFinite = true ∧
      0.0 ≤ (1.7976931348623157e308 : Float) := by decide +kernel
  exact ⟨hlargest, square_root_converges (.inl hlargest)⟩

end Trinomial.Number
