import Trinomial.Proofs.Panel.Editing

/-! # The limit of the entry

Buttons and keys keep the entry within its limit, the spaces at its end left out, and a refused press
keeps all but these spaces. The spaces are not kept: an operator sets them around the test for room, so
an entry that is full grows by two spaces at most, and does so when the operator is refused.
-/
set_option autoImplicit false

namespace Trinomial.Panel

/-- The limit holds up to the spaces at the end, of which there may be two more. -/
structure Limited (cs : List Char) : Prop where
  stripped : (stripEnd cs).length ≤ entryLimit
  length_le : cs.length ≤ entryLimit + 2

theorem limited_of_length {cs : List Char} (h : cs.length ≤ entryLimit) : Limited cs :=
  ⟨(strip_end_length_le cs).trans h, by omega⟩

/-! ## Presses -/

theorem strip_end_gap (cs : List Char) (b : Button) : stripEnd (cs ++ b.gap) = stripEnd cs := by
  cases b with
  | operator o => exact strip_end_space cs
  | _ => exact congrArg stripEnd (List.append_nil cs)

theorem gap_length_le (b : Button) : b.gap.length ≤ 1 := by
  cases b with
  | operator o => exact le_refl 1
  | _ => exact Nat.zero_le 1

namespace State
variable {s : State} {b : Button} {c : Char}

theorem length_spaced_le (s : State) :
    s.spaced.entry.toList.length ≤ (stripEnd s.entry.toList).length + 1 := by
  rw [entry_spaced]
  split
  · exact Nat.zero_le _
  · rw [List.length_append, List.length_singleton]

/-- A refused press keeps all but the spaces at the end. -/
theorem strip_end_refused (hb : b.char? = some c) (h : s.accepts b = false) :
    stripEnd (s.press b).1.entry.toList = stripEnd s.entry.toList := by
  rw [entry_press_symbol s hb, h, if_neg Bool.false_ne_true, List.append_nil, strip_end_gap,
    strip_end_prepared]

theorem prepared_plain (s : State) (hplain : ∀ o, b ≠ .operator o) : s.prepared b = s := by
  cases b with
  | operator o => exact absurd rfl (hplain o)
  | _ => rfl

/-- A refused press of a symbol that is no operator changes nothing. -/
theorem press_refused (hb : b.char? = some c) (h : s.accepts b = false)
    (hplain : ∀ o, b ≠ .operator o) : (s.press b).1 = s := by
  have hroom : s.hasRoom (String.singleton c) = false := by
    rwa [accepts, hb, Option.any_some, s.prepared_plain hplain] at h
  rw [s.press_plain hb hplain, insert, hroom, if_neg Bool.false_ne_true]

theorem limited_accepted (hb : b.char? = some c) (h : s.accepts b = true) :
    Limited (s.press b).1.entry.toList := by
  have hroom := (s.accepts_iff hb).mp h
  have hgap := gap_length_le b
  have hlength : ((s.prepared b).entry.toList ++ [c]).length ≤ entryLimit := by
    rw [List.length_append, List.length_singleton, String.length_toList]
    exact hroom
  rw [entry_press_symbol s hb, if_pos h]
  constructor
  · rw [strip_end_gap]
    exact (strip_end_length_le _).trans hlength
  · rw [List.length_append]
    omega

theorem limited_refused (hb : b.char? = some c) (h : s.accepts b = false)
    (hs : Limited s.entry.toList) : Limited (s.press b).1.entry.toList := by
  refine ⟨(strip_end_refused hb h).symm ▸ hs.stripped, ?_⟩
  by_cases hplain : ∀ o, b ≠ .operator o
  · rw [press_refused hb h hplain]
    exact hs.length_le
  · obtain ⟨o, ho⟩ := not_forall_not.mp hplain
    rw [entry_press_symbol s hb, h, if_neg Bool.false_ne_true, List.append_nil, ho, prepared,
      Button.gap, List.length_append, List.length_singleton]
    have hlength := s.length_spaced_le
    have hstripped := hs.stripped
    omega

theorem limited_leaves {cs : List Char} (b : Button) (h : Limited cs) : Limited (b.leaves cs) := by
  cases b with
  | delete =>
    have hle := strip_end_length_le (stripEnd cs).dropLast
    rw [List.length_dropLast] at hle
    have hstripped := h.stripped
    exact limited_of_length (by rw [Button.leaves]; omega)
  | clearEntry => exact limited_of_length (Nat.zero_le _)
  | reset => exact limited_of_length (Nat.zero_le _)
  | _ => exact h

theorem limited_press (b : Button) (h : Limited s.entry.toList) :
    Limited (s.press b).1.entry.toList := by
  cases hb : b.char? with
  | some c =>
    cases haccepts : s.accepts b with
    | true => exact limited_accepted hb haccepts
    | false => exact limited_refused hb haccepts h
  | none =>
    rw [entry_press_other s hb]
    exact limited_leaves b h

end State

/-! ## Runs -/

/-- The step puts a text into the entry without a press. -/
def Step.assigns : Step → Bool
  | .setEntry _ => true
  | _ => false

namespace Session
variable {s : Session}

theorem limited_step {step : Step} (h : Limited s.state.entry.toList) (hstep : step.assigns = false) :
    Limited (s.step step).1.state.entry.toList := by
  cases step with
  | press b =>
    rw [step_press, entry_settle]
    exact State.limited_press b h
  | escape => exact limited_of_length (Nat.zero_le _)
  | enter ctrl => rwa [entry_enter]
  | setEntry text => cases hstep

theorem limited_after (steps : List Step) (h : Limited s.state.entry.toList)
    (hsteps : ∀ step ∈ steps, step.assigns = false) :
    Limited (s.after steps).state.entry.toList := by
  induction steps generalizing s with
  | nil => exact h
  | cons step steps ih =>
    obtain ⟨hstep, hsteps⟩ := List.forall_mem_cons.mp hsteps
    exact ih (limited_step h hstep) hsteps

end Session

/-! ## A full entry -/

/-- One operator after the other. -/
def pluses (n : ℕ) : List Step := List.replicate n (.press (.operator .plus))

theorem pluses_assign_nothing (n : ℕ) : ∀ step ∈ pluses n, step.assigns = false := by
  intro step hstep
  rw [List.eq_of_mem_replicate hstep]
  rfl

theorem entry_pluses_succ (n : ℕ) : (Session.start.after (pluses (n + 1))).state.entry =
    ((Session.start.after (pluses n)).state.press (.operator .plus)).1.entry := by
  rw [pluses, List.replicate_succ', ← pluses, Session.after_concat, Session.step_press,
    Session.entry_settle]

/-- An operator that follows an operator finds its space. -/
theorem State.entry_spaced_pairs {s : State} {n : ℕ}
    (h : s.entry.toList = (List.replicate n ['+', ' ']).flatten) :
    s.spaced.entry.toList = (List.replicate n ['+', ' ']).flatten := by
  rw [entry_spaced, h]
  cases n with
  | zero => rfl
  | succ n =>
    have hpair : (List.replicate (n + 1) ['+', ' ']).flatten =
        (List.replicate n ['+', ' ']).flatten ++ ['+'] ++ [' '] := by
      rw [List.replicate_succ', List.flatten_append, List.append_assoc]
      rfl
    rw [hpair, strip_end_space, strip_end_symbol _ (by decide), if_neg (by simp)]

theorem length_pairs (n : ℕ) : (List.replicate n ['+', ' ']).flatten.length = 2 * n := by
  rw [List.length_flatten, List.map_replicate, List.sum_replicate_nat, Nat.mul_comm]
  rfl

theorem accepts_plus_iff {s : State} {n : ℕ}
    (h : s.entry.toList = (List.replicate n ['+', ' ']).flatten) :
    s.accepts (.operator .plus) = true ↔ 2 * n + 1 ≤ entryLimit := by
  rw [s.accepts_iff (b := .operator .plus) rfl, State.prepared, ← String.length_toList,
    State.entry_spaced_pairs h, length_pairs]

theorem entry_pluses {n : ℕ} (h : n ≤ 256) : (Session.start.after (pluses n)).state.entry.toList =
    (List.replicate n ['+', ' ']).flatten := by
  induction n with
  | zero => rfl
  | succ n ih =>
    have hentry := ih (by omega)
    have haccepts := (accepts_plus_iff hentry).mpr (by rw [entryLimit]; omega)
    rw [entry_pluses_succ, State.entry_press_symbol _ (b := .operator .plus) rfl, if_pos haccepts,
      State.prepared, State.entry_spaced_pairs hentry, List.replicate_succ', List.flatten_append,
      List.append_assoc]
    rfl

theorem length_pluses : (Session.start.after (pluses 256)).state.entry.length = entryLimit := by
  rw [← String.length_toList, entry_pluses (le_refl 256), length_pairs]
  rfl

theorem pluses_refuse_plus :
    (Session.start.after (pluses 256)).state.accepts (.operator .plus) = false := by
  rw [Bool.eq_false_iff, Ne, accepts_plus_iff (entry_pluses (le_refl 256))]
  decide

theorem pluses_refuse_unknown : (Session.start.after (pluses 256)).state.accepts .unknown = false := by
  have hplain (o : Operator) : Button.unknown ≠ .operator o := nofun
  rw [Bool.eq_false_iff, Ne, State.accepts_iff _ rfl, State.prepared_plain _ hplain, length_pluses]
  decide

/-! ## The limit -/

/-- At a panel that is used by buttons and keys alone the entry is within its limit, but for up to two
spaces at its end; a refused press keeps all but these spaces, and only an operator touches them. -/
theorem entry_limited_but_spaces (steps : List Step) (h : ∀ step ∈ steps, step.assigns = false) :
    Limited (Session.start.after steps).state.entry.toList ∧
      ∀ b c, b.char? = some c → (Session.start.after steps).state.accepts b = false →
        stripEnd ((Session.start.after steps).state.press b).1.entry.toList =
            stripEnd (Session.start.after steps).state.entry.toList ∧
          ((∀ o, b ≠ .operator o) → ((Session.start.after steps).state.press b).1 =
            (Session.start.after steps).state) :=
  ⟨Session.limited_after steps (limited_of_length (Nat.zero_le _)) h, fun _ _ hb hrefused =>
    ⟨State.strip_end_refused hb hrefused, State.press_refused hb hrefused⟩⟩

/-- After 256 operators the entry is full: one more operator leaves the symbols as they are, and the
unknown leaves everything. -/
theorem pluses_entry_limited : (∀ step ∈ pluses 256, step.assigns = false) ∧
    Limited (Session.start.after (pluses 256)).state.entry.toList ∧
    stripEnd ((Session.start.after (pluses 256)).state.press (.operator .plus)).1.entry.toList =
      stripEnd (Session.start.after (pluses 256)).state.entry.toList ∧
    ((Session.start.after (pluses 256)).state.press .unknown).1 =
      (Session.start.after (pluses 256)).state := by
  have h := entry_limited_but_spaces (pluses 256) (pluses_assign_nothing 256)
  exact ⟨pluses_assign_nothing 256, h.1, (h.2 (.operator .plus) '+' rfl pluses_refuse_plus).1,
    (h.2 .unknown 'X' rfl pluses_refuse_unknown).2 fun _ => nofun⟩

/-- At the limit an operator is refused, changes the entry and takes it beyond the limit. -/
theorem refused_operator_passes_limit : (∀ step ∈ pluses 257, step.assigns = false) ∧
    (Session.start.after (pluses 256)).state.accepts (.operator .plus) = false ∧
    ((Session.start.after (pluses 256)).state.press (.operator .plus)).1.entry ≠
      (Session.start.after (pluses 256)).state.entry ∧
    (Session.start.after (pluses 257)).state.entry.length = entryLimit + 1 := by
  have hpress : ((Session.start.after (pluses 256)).state.press (.operator .plus)).1.entry.length =
      entryLimit + 1 := by
    rw [← String.length_toList, State.entry_press_symbol _ (b := .operator .plus) rfl,
      pluses_refuse_plus, State.prepared, State.entry_spaced_pairs (entry_pluses (le_refl 256)),
      List.length_append, List.length_append, length_pairs]
    rfl
  refine ⟨pluses_assign_nothing 257, pluses_refuse_plus, fun heq => ?_, ?_⟩
  · rw [heq, length_pluses] at hpress
    cases hpress
  · rw [entry_pluses_succ, hpress]

end Trinomial.Panel
