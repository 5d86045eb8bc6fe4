import Mathlib.Tactic.SplitIfs
import Trinomial.Proofs.Grammar.Operands

/-! # Reading sides and equations

A list of tokens is read to its end exactly when the grammar derives it, unless a computation on the
way has no result; and what is read is the value of the derivation tree.
-/
set_option autoImplicit false

namespace Trinomial

/-! ## Failures of computations -/

/-- The failures that come from numbers and not from the wording. -/
def Failure.IsNumeric : Failure → Prop
  | zeroDivision _ => True
  | outsideDomain _ => True
  | noConvergence _ _ => True
  | malformed _ => False
  | unsupportedDegree _ => False

theorem square_root_error {x : Float} {e : Failure} (h : Number.squareRoot x = .error e) :
    e.IsNumeric := by
  unfold Number.squareRoot at h
  split at h
  · cases h
  · split at h
    · cases h
      trivial
    · split at h
      · cases h
      · cases h
        trivial

theorem power_within_error {depth : Nat} {base exponent epsilon : Float} {x : Traced Float}
    {e : Failure} (h : Number.powerWithin depth base exponent epsilon = some x)
    (he : x.result = .error e) : e.IsNumeric := by
  induction depth generalizing base exponent epsilon x with
  | zero => cases h
  | succ depth ih =>
    -- a nested call fails with its own error, and what follows it divides, squares or multiplies
    have nested : ∀ {b p eps : Float} {f : Float → Float}, x.result = .error e →
        (Number.powerWithin depth b p eps).map (fun y => do return f (← y)) = some x →
        e.IsNumeric := by
      intro b p eps f he h
      obtain ⟨y, hy, rfl⟩ := Option.map_eq_some_iff.mp h
      rw [Traced.result_bind, bind_eq_error] at he
      rcases he with he | ⟨_, _, he⟩
      · exact ih hy he
      · cases he
    simp only [Number.powerWithin] at h
    generalize (if base < 0.0 then -base else base) = size at h
    split_ifs at h
    · cases h; cases he; trivial
    · cases h; cases he; trivial
    · cases h; cases he; trivial
    · cases h; cases he
    · cases h; cases he
    · cases h; cases he
    · exact nested he h
    · exact nested he h
    · exact nested he h
    · cases h
      rw [Traced.result_bind, Traced.result_note, ok_bind, Traced.result_bind, bind_eq_error] at he
      rcases he with he | ⟨_, _, he⟩
      · exact square_root_error he
      · cases he
    · obtain ⟨y, hy, rfl⟩ := Option.map_eq_some_iff.mp h
      rw [Traced.result_bind, Traced.result_note, ok_bind, Traced.result_bind, bind_eq_error] at he
      rcases he with he | ⟨_, _, he⟩
      · exact ih hy he
      · rw [Traced.result_bind, bind_eq_error] at he
        rcases he with he | ⟨_, _, he⟩
        · exact square_root_error he
        · cases he

theorem power_error {base exponent : Float} {e : Failure}
    (h : (Number.power base exponent).result = .error e) : e.IsNumeric := by
  unfold Number.power at h
  cases hp : Number.powerWithin Number.powerDepth base exponent Number.tolerance with
  | none =>
    rw [hp] at h
    cases h
    trivial
  | some x =>
    rw [hp] at h
    exact power_within_error hp h

namespace Grammar

theorem atom_value_error {a : AtomTree} {e : Failure} (hu : a ≠ .unknown) : a.value ≠ .error e := by
  cases a with
  | unknown => exact absurd rfl hu
  | number s v spelling => rcases s with _ | _ | _ <;> nofun

theorem tower_value_error {t : TowerTree} {e : Failure} (hu : .unknown ∉ t.atoms)
    (h : t.value = .error e) : e.IsNumeric := by
  induction t with
  | atom a => exact absurd h (atom_value_error (by simpa [TowerTree.atoms, eq_comm] using hu))
  | power base exponent ih =>
    have hb : base ≠ .unknown ∧ .unknown ∉ exponent.atoms := by
      simpa [TowerTree.atoms, eq_comm] using hu
    rcases bind_eq_error.mp h with h | ⟨p, -, h⟩
    · exact ih hb.2 h
    · rcases bind_eq_error.mp h with h | ⟨v, -, h⟩
      · exact absurd h (atom_value_error hb.1)
      · exact power_error h

theorem operand_error {t : TowerTree} {e : Failure} (hu : .unknown ∉ t.atoms.tail)
    (h : t.operand = .error e) : e.IsNumeric := by
  cases t with
  | atom a =>
    cases a with
    | unknown => cases h
    | number s v spelling => exact absurd (map_eq_error.mp h) (atom_value_error nofun)
  | power base exponent =>
    cases base with
    | unknown => exact tower_value_error hu (map_eq_error.mp h)
    | number s v spelling =>
      refine tower_value_error ?_ (map_eq_error.mp h)
      simpa [TowerTree.atoms] using hu

theorem exists_error_of_list {α β : Type} {f : α → Except Failure β} {l : List α} {e : Failure}
    (h : l.mapM f = .error e) : ∃ a ∈ l, f a = .error e := by
  induction l with
  | nil => cases h
  | cons a l ih =>
    rw [List.mapM_cons] at h
    rcases bind_eq_error.mp h with h | ⟨b, -, h⟩
    · exact ⟨a, List.mem_cons_self .., h⟩
    · rcases bind_eq_error.mp h with h | ⟨bs, -, h⟩
      · obtain ⟨c, hc, h⟩ := ih h
        exact ⟨c, List.mem_cons_of_mem a hc, h⟩
      · cases h

theorem fraction_error {f : FactorTree} {e : Failure} (hf : ∀ t ∈ f.towers, t.Admissible)
    (h : f.fraction = .error e) : e.IsNumeric := by
  rcases bind_eq_error.mp h with h | ⟨o, -, h⟩
  · exact operand_error (hf _ (List.mem_cons_self ..)).2 h
  · rcases bind_eq_error.mp h with h | ⟨os, -, h⟩
    · obtain ⟨t, ht, h⟩ := exists_error_of_list h
      exact operand_error (hf t (List.mem_cons_of_mem _ ht)).2 h
    · cases h

theorem term_value_error {t : TermTree} {e : Failure} (ht : ∀ u ∈ t.towers, u.Admissible)
    (h : t.value = .error e) : e.IsNumeric := by
  rcases bind_eq_error.mp h with h | ⟨f, -, h⟩
  · obtain ⟨f, hf, h⟩ := exists_error_of_list (map_eq_error.mp h)
    refine fraction_error (fun u hu => ht u ?_) h
    rcases List.mem_cons.mp hf with rfl | hf
    · exact List.mem_append_left _ hu
    · exact List.mem_append_right _ (List.mem_flatMap.mpr ⟨f, hf, hu⟩)
  · dsimp only at h
    split at h
    · cases h
      trivial
    · cases h

/-! ## Sides -/

theorem term_tokens_end {ps : List (Sign × TermTree)} : EndsTerm (termTokens ps) := by
  cases ps with
  | nil => exact ⟨nofun, nofun, nofun⟩
  | cons p ps => rcases p with ⟨_ | _, t⟩ <;> exact ⟨nofun, nofun, nofun⟩

theorem atom_tokens_ne_nil (a : AtomTree) : a.tokens ≠ [] := by
  rcases a with ⟨_ | _, v, spelling⟩ | _ <;> nofun

theorem side_tokens_ne_nil (s : SideTree) : s.tokens ≠ [] := by
  obtain ⟨⟨⟨t, ds⟩, fs⟩, ps⟩ := s
  cases t with
  | atom a => simp [SideTree.tokens, TermTree.tokens, FactorTree.tokens, TowerTree.tokens, atom_tokens_ne_nil]
  | power base exponent =>
    simp [SideTree.tokens, TermTree.tokens, FactorTree.tokens, TowerTree.tokens]

theorem add_to_cons (t : Term) (log : List Record) (r : SideReading) (table : Table) :
    ((SideReading.cons t log r).addTo table).result = (r.addTo (table.add t)).result := rfl

theorem add_to_read {sign : Float} {ts : List Token} (h : ts ≠ []) (table : Table) :
    ((SideReading.read sign ts).addTo table).result =
      ((SideReading.readTerms sign sign ts).addTo table).result := by
  cases ts with
  | nil => exact absurd rfl h
  | cons t ts => rfl

theorem read_terms_tokens {first : TermTree} {others : List (Sign × TermTree)} {side sign : Float}
    {table : Table} (hf : ∀ u ∈ first.towers, u.atoms.length ≤ towerLimit)
    (ho : ∀ p ∈ others, ∀ u ∈ p.2.towers, u.atoms.length ≤ towerLimit) :
    ((SideReading.readTerms side sign (first.tokens ++ termTokens others)).addTo table).result =
      ((sign, first) :: others.map fun p => (p.1.apply side, p.2)).foldlM addSigned table := by
  induction others generalizing first sign table with
  | nil =>
    have h : (Term.read (first.tokens ++ [])).result = _ :=
      read_term_tokens hf ⟨nofun, nofun, nofun⟩
    rw [List.append_nil] at h
    cases hv : first.value with
    | error e =>
      rw [hv] at h
      simp [termTokens, addSigned, SideReading.read_terms_error (Traced.eq_mk_of_result h), hv,
        SideReading.stop, SideReading.addTo]
    | ok t =>
      rw [hv] at h
      simp [termTokens, addSigned, SideReading.read_terms_last (Traced.eq_mk_of_result h), hv,
        SideReading.cons, SideReading.addTo, Table.addAll]
  | cons p others ih =>
    obtain ⟨s, second⟩ := p
    have h : (Term.read (first.tokens ++ termTokens ((s, second) :: others))).result = _ :=
      read_term_tokens hf term_tokens_end
    have ih := fun {sign table} => @ih second sign table (ho _ (List.mem_cons_self ..))
      fun q hq => ho q (List.mem_cons_of_mem _ hq)
    cases hv : first.value with
    | error e =>
      rw [hv] at h
      simp [addSigned, SideReading.read_terms_error (Traced.eq_mk_of_result h), hv,
        SideReading.stop, SideReading.addTo]
    | ok t =>
      rw [hv] at h
      have hadd : addSigned table (sign, first) = .ok (table.add (t.scale sign)) := by
        simp [addSigned, hv]
      rw [List.foldlM_cons, hadd, ok_bind, List.map_cons, ← ih]
      cases s with
      | plus => rw [SideReading.read_terms_plus (Traced.eq_mk_of_result h), add_to_cons]; rfl
      | minus => rw [SideReading.read_terms_minus (Traced.eq_mk_of_result h), add_to_cons]; rfl

theorem read_terms_tree {side sign : Float} {ts : List Token} {table table' : Table}
    (h : ((SideReading.readTerms side sign ts).addTo table).result = .ok table') : IsSide ts := by
  fun_induction SideReading.readTerms side sign ts generalizing table with
  | case1 => cases h
  | case2 sign ts log t ht =>
    obtain ⟨tree, ha, hs⟩ := read_term_tree (congrArg Traced.result ht)
    refine ⟨⟨tree, []⟩, ?_, by simp [SideTree.tokens, termTokens, hs]⟩
    simpa [SideTree.Admissible, SideTree.towers] using ha
  | case3 sign ts log t rest ht _ ih =>
    rw [add_to_cons] at h
    obtain ⟨s, hs, rfl⟩ := ih h
    obtain ⟨tree, ha, rfl⟩ := read_term_tree (congrArg Traced.result ht)
    refine ⟨⟨tree, (.plus, s.first) :: s.others⟩, ?_,
      by simp [SideTree.tokens, termTokens, Sign.token]⟩
    intro u hu
    rcases List.mem_append.mp hu with hu | hu
    · exact ha u hu
    · exact hs u (by simpa [SideTree.towers] using hu)
  | case4 sign ts log t rest ht _ ih =>
    rw [add_to_cons] at h
    obtain ⟨s, hs, rfl⟩ := ih h
    obtain ⟨tree, ha, rfl⟩ := read_term_tree (congrArg Traced.result ht)
    refine ⟨⟨tree, (.minus, s.first) :: s.others⟩, ?_,
      by simp [SideTree.tokens, termTokens, Sign.token]⟩
    intro u hu
    rcases List.mem_append.mp hu with hu | hu
    · exact ha u hu
    · exact hs u (by simpa [SideTree.towers] using hu)
  | case5 => cases h

theorem read_side_tokens {s : SideTree} (h : ∀ u ∈ s.towers, u.atoms.length ≤ towerLimit)
    (sign : Float) (table : Table) :
    ((SideReading.read sign s.tokens).addTo table).result =
      (s.signedTerms sign).foldlM addSigned table := by
  rw [add_to_read (side_tokens_ne_nil s)]
  refine read_terms_tokens (fun u hu => h u (List.mem_append_left _ hu)) fun p hp u hu => ?_
  exact h u (List.mem_append_right _ (List.mem_flatMap.mpr ⟨p, hp, hu⟩))

theorem read_side_tree {ts : List Token} {sign : Float} {table table' : Table}
    (h : ((SideReading.read sign ts).addTo table).result = .ok table') : IsSide ts := by
  have hts : ts ≠ [] := by
    rintro rfl
    cases h
  rw [add_to_read hts] at h
  exact read_terms_tree h

theorem towers_le_limit {s : SideTree} (h : s.Admissible) :
    ∀ u ∈ s.towers, u.atoms.length ≤ towerLimit := fun u hu => (h u hu).1

theorem add_signed_error {ps : List (Float × TermTree)} {table : Table} {e : Failure}
    (hp : ∀ p ∈ ps, ∀ u ∈ p.2.towers, u.Admissible) (h : ps.foldlM addSigned table = .error e) :
    e.IsNumeric := by
  induction ps generalizing table with
  | nil => cases h
  | cons p ps ih =>
    rw [List.foldlM_cons] at h
    rcases bind_eq_error.mp h with h | ⟨table', -, h⟩
    · exact term_value_error (hp p (List.mem_cons_self ..)) (map_eq_error.mp h)
    · exact ih (fun q hq => hp q (List.mem_cons_of_mem p hq)) h

theorem signed_terms_error {s : SideTree} {sign : Float} {table : Table} {e : Failure}
    (hs : s.Admissible) (h : (s.signedTerms sign).foldlM addSigned table = .error e) :
    e.IsNumeric := by
  refine add_signed_error (fun p hp u hu => ?_) h
  rcases List.mem_cons.mp hp with rfl | hp
  · exact hs u (List.mem_append_left _ hu)
  · obtain ⟨q, hq, rfl⟩ := List.mem_map.mp hp
    exact hs u (List.mem_append_right _ (List.mem_flatMap.mpr ⟨q, hq, hu⟩))

theorem read_side_result {ts : List Token} (h : IsSide ts) (sign : Float) (table : Table) :
    (∃ table', ((SideReading.read sign ts).addTo table).result = .ok table') ∨
      ∃ e : Failure, e.IsNumeric ∧ ((SideReading.read sign ts).addTo table).result = .error e := by
  obtain ⟨s, hs, rfl⟩ := h
  rw [read_side_tokens (towers_le_limit hs)]
  cases hv : (s.signedTerms sign).foldlM addSigned table with
  | ok table' => exact .inl ⟨table', rfl⟩
  | error e => exact .inr ⟨e, signed_terms_error hs hv, rfl⟩

/-! ## Equations -/

theorem take_before_equals {left right : List Token} (h : .equals ∉ left) :
    (left ++ .equals :: right).takeWhile (· != .equals) = left ∧
      (left ++ .equals :: right).dropWhile (· != .equals) = .equals :: right := by
  have hl : ∀ t ∈ left, (t != .equals) = true := by
    intro t ht
    simpa using fun hh : t = .equals => h (hh ▸ ht)
  rw [List.takeWhile_append_of_pos hl, List.dropWhile_append_of_pos hl]
  simp

theorem split_sides_append {left right : List Token} (hl : .equals ∉ left) (hr : .equals ∉ right) :
    Token.splitSides (left ++ .equals :: right) = .ok (left, right) := by
  have hc : (left ++ .equals :: right).count .equals = 1 := by
    simp [List.count_eq_zero_of_not_mem hl, List.count_eq_zero_of_not_mem hr]
  obtain ⟨ht, hd⟩ := @take_before_equals left right hl
  simp only [Token.splitSides, hc, ht, hd, List.drop_one, List.tail_cons]

theorem split_sides_eq_ok {ts left right : List Token} (h : Token.splitSides ts = .ok (left, right)) :
    ts.count .equals = 1 ∧ ts = left ++ .equals :: right := by
  unfold Token.splitSides at h
  split at h
  · cases h
  · rename_i hc
    have hm : .equals ∈ ts := List.count_pos_iff.mp (by omega)
    obtain ⟨left', right', rfl, hn⟩ := List.eq_append_cons_of_mem hm
    obtain ⟨ht, hd⟩ := @take_before_equals left' right' hn
    rw [ht, hd] at h
    cases h
    exact ⟨hc, rfl⟩
  · cases h

theorem equals_not_mem_atom (a : AtomTree) : .equals ∉ a.tokens := by
  rcases a with ⟨_ | _ | _, v, spelling⟩ | _ <;> simp [AtomTree.tokens, Sign.token]

theorem equals_not_mem_tower (t : TowerTree) : .equals ∉ t.tokens := by
  induction t with
  | atom a => exact equals_not_mem_atom a
  | power base exponent ih => simp [TowerTree.tokens, equals_not_mem_atom, ih]

theorem equals_not_mem_term (t : TermTree) : .equals ∉ t.tokens := by
  simp [TermTree.tokens, FactorTree.tokens, factorTokens, divisorTokens, equals_not_mem_tower]

theorem equals_not_mem_side (s : SideTree) : .equals ∉ s.tokens := by
  have hs : ∀ g : Sign, g.token ≠ .equals := by
    rintro (_ | _) <;> nofun
  simp [SideTree.tokens, termTokens, equals_not_mem_term, (hs _).symm]

theorem read_equation_tokens {e : EquationTree}
    (hl : ∀ u ∈ e.left.towers, u.atoms.length ≤ towerLimit)
    (hr : ∀ u ∈ e.right.towers, u.atoms.length ≤ towerLimit) :
    (Equation.rawTable e.tokens).result = e.value := by
  rw [Equation.rawTable, EquationTree.tokens,
    split_sides_append (equals_not_mem_side _) (equals_not_mem_side _), Traced.result_bind,
    Traced.result_ofResult, ok_bind, Traced.result_bind, read_side_tokens hl, EquationTree.value,
    List.foldlM_append]
  exact congrArg _ (funext fun table => read_side_tokens hr (-1.0) table)

/-- A side is read to its end exactly when the grammar derives it, or else a computation fails; and
an equation likewise, from its two sides around the only sign of equality. -/
theorem reading_accepts_grammar (ts : List Token) :
    (∀ (sign : Float) (table : Table),
      ((∃ table', ((SideReading.read sign ts).addTo table).result = .ok table') → IsSide ts) ∧
      (IsSide ts →
        (∃ table', ((SideReading.read sign ts).addTo table).result = .ok table') ∨
        ∃ e : Failure, e.IsNumeric ∧ ((SideReading.read sign ts).addTo table).result = .error e)) ∧
    ((∃ table, (Equation.rawTable ts).result = .ok table) →
      ts.count .equals = 1 ∧ IsEquation ts) ∧
    (IsEquation ts →
      (∃ table, (Equation.rawTable ts).result = .ok table) ∨
      ∃ e : Failure, e.IsNumeric ∧ (Equation.rawTable ts).result = .error e) := by
  refine ⟨fun sign table => ⟨?_, fun h => read_side_result h sign table⟩, ?_, ?_⟩
  · rintro ⟨table', h⟩
    exact read_side_tree h
  · rintro ⟨table, h⟩
    rw [Equation.rawTable, Traced.result_bind] at h
    obtain ⟨⟨left, right⟩, hs, h⟩ := bind_eq_ok.mp h
    rw [Traced.result_bind] at h
    obtain ⟨table', hl, hr⟩ := bind_eq_ok.mp h
    obtain ⟨hc, rfl⟩ := split_sides_eq_ok hs
    exact ⟨hc, left, right, read_side_tree hl, read_side_tree hr, rfl⟩
  · rintro ⟨left, right, hl, hr, rfl⟩
    have hs : Token.splitSides (left ++ .equals :: right) = .ok (left, right) := by
      obtain ⟨s, -, rfl⟩ := hl
      obtain ⟨s', -, rfl⟩ := hr
      exact split_sides_append (equals_not_mem_side s) (equals_not_mem_side s')
    rw [Equation.rawTable, Traced.result_bind, Traced.result_ofResult, hs, ok_bind,
      Traced.result_bind]
    rcases read_side_result hl 1.0 {} with ⟨table, h⟩ | ⟨e, he, h⟩
    · rw [h, ok_bind]
      exact read_side_result hr (-1.0) table
    · exact .inr ⟨e, he, by rw [h, error_bind]⟩

/-- `2^3^2 / 4 * X - -1 = X^2 / X^0.5 * 3`. -/
def sampleEquation : EquationTree where
  left :=
    ⟨⟨⟨.power (.number none 2.0 "2") (.power (.number none 3.0 "3") (.atom (.number none 2.0 "2"))),
        [.atom (.number none 4.0 "4")]⟩, [⟨.atom .unknown, []⟩]⟩,
      [(.minus, ⟨⟨.atom (.number (some .minus) 1.0 "1"), []⟩, []⟩)]⟩
  right :=
    ⟨⟨⟨.power .unknown (.atom (.number none 2.0 "2")),
        [.power .unknown (.atom (.number none 0.5 "0.5"))]⟩, [⟨.atom (.number none 3.0 "3"), []⟩]⟩, []⟩

theorem sample_equation_value : sampleEquation.value.toOption =
    some ⟨[⟨1.0, .number 0.0⟩, ⟨128.0, .number 1.0⟩, ⟨-3.0, .number 1.5⟩]⟩ := by
  decide +kernel

theorem sample_equation_derived : IsEquation sampleEquation.tokens :=
  ⟨_, _, ⟨sampleEquation.left, by decide, rfl⟩, ⟨sampleEquation.right, by decide, rfl⟩, rfl⟩

theorem sample_equation_is_read :
    ∃ table, (Equation.rawTable sampleEquation.tokens).result = .ok table := by
  have hl : sampleEquation.left.Admissible := by decide
  have hr : sampleEquation.right.Admissible := by decide
  rw [read_equation_tokens (towers_le_limit hl) (towers_le_limit hr)]
  cases hv : sampleEquation.value with
  | ok table => exact ⟨table, rfl⟩
  | error e =>
    have h := sample_equation_value
    rw [hv] at h
    cases h

/-- Both directions at one equation: it is read, hence derived; and it is derived, hence read. -/
theorem reading_accepts_sample :
    ((∃ table, (Equation.rawTable sampleEquation.tokens).result = .ok table) ∧
      sampleEquation.tokens.count .equals = 1 ∧ IsEquation sampleEquation.tokens) ∧
    (IsEquation sampleEquation.tokens ∧
      ((∃ table, (Equation.rawTable sampleEquation.tokens).result = .ok table) ∨
      ∃ e : Failure, e.IsNumeric ∧
        (Equation.rawTable sampleEquation.tokens).result = .error e)) :=
  ⟨⟨sample_equation_is_read,
      (reading_accepts_grammar sampleEquation.tokens).2.1 sample_equation_is_read⟩,
    sample_equation_derived,
      (reading_accepts_grammar sampleEquation.tokens).2.2 sample_equation_derived⟩

/-- The table that is read from an equation is the value of its derivation tree. -/
theorem raw_table_eq_value (e : EquationTree) (h : e.Admissible) :
    (Equation.rawTable e.tokens).result = e.value :=
  read_equation_tokens (towers_le_limit h.1) (towers_le_limit h.2)

theorem raw_table_sample : sampleEquation.Admissible ∧
    (Equation.rawTable sampleEquation.tokens).result = sampleEquation.value ∧
    sampleEquation.value.toOption =
      some ⟨[⟨1.0, .number 0.0⟩, ⟨128.0, .number 1.0⟩, ⟨-3.0, .number 1.5⟩]⟩ :=
  ⟨by decide, raw_table_eq_value sampleEquation (by decide), sample_equation_value⟩

end Grammar
end Trinomial
