import Trinomial.Proofs.Grammar.Tree

/-! # Reading atoms, towers and terms

The reader follows the grammar on both sides. The tokens of a tree, in front of tokens that cannot
continue it, are read as the value of the tree; and whatever is read is the tokens of a tree.
-/
set_option autoImplicit false

namespace Trinomial.Grammar

/-! ## Atoms -/

/-- What an atom tree is read as. -/
def AtomTree.atom : AtomTree → Atom
  | number none v _ => .number v
  | number (some s) v _ => .number (s.apply v)
  | unknown => .unknown

theorem read_atom_tokens (a : AtomTree) (rest : List Token) :
    Atom.read (a.tokens ++ rest) = .ok (a.atom, rest) := by
  cases a with
  | unknown => rfl
  | number s v spelling =>
    rcases s with _ | _ | _ <;> rfl

theorem read_signed_tree {s : Sign} {ts rest : List Token} {a : Atom}
    (h : Atom.readSigned s.token s.apply ts = .ok (a, rest)) :
    ∃ t : AtomTree, ts = t.tokens.tail ++ rest ∧ t.tokens = s.token :: t.tokens.tail ∧ t.atom = a := by
  unfold Atom.readSigned at h
  split at h
  · rename_i v spelling ts
    cases h
    exact ⟨.number (some s) v spelling, rfl, rfl, rfl⟩
  · cases h
  · cases h

theorem read_atom_tree {ts rest : List Token} {a : Atom} (h : Atom.read ts = .ok (a, rest)) :
    ∃ t : AtomTree, ts = t.tokens ++ rest ∧ t.atom = a := by
  unfold Atom.read at h
  split at h
  · cases h
    exact ⟨.unknown, rfl, rfl⟩
  · rename_i v spelling ts
    cases h
    exact ⟨.number none v spelling, rfl, rfl⟩
  · obtain ⟨t, ht, hs, ha⟩ := read_signed_tree (s := .plus) h
    exact ⟨t, by rw [hs, ht]; rfl, ha⟩
  · obtain ⟨t, ht, hs, ha⟩ := read_signed_tree (s := .minus) h
    exact ⟨t, by rw [hs, ht]; rfl, ha⟩
  · cases h
  · cases h

theorem alone_eq_operand (a : AtomTree) : .ok a.atom.alone = (TowerTree.atom a).operand := by
  cases a with
  | unknown => rfl
  | number s v spelling => rcases s with _ | _ | _ <;> rfl

theorem raised_result (a : AtomTree) (t : TowerTree) {e : Float} (h : t.value = .ok e) :
    (a.atom.raised e).result = (TowerTree.power a t).operand := by
  cases a with
  | unknown => simp [AtomTree.atom, Atom.raised, TowerTree.operand, h]
  | number s v spelling =>
    have hmap : ∀ b : Float, (do return Operand.literal (← Number.power b e) : Traced Operand).result =
        (Number.power b e).result.map .literal := by
      intro b
      rw [Traced.result_bind]
      cases (Number.power b e).result <;> rfl
    rcases s with _ | _ | _ <;>
      simp only [AtomTree.atom, Atom.raised, TowerTree.operand, TowerTree.value, h, AtomTree.value,
        ok_bind, hmap]

/-! ## Towers -/

theorem operand_as_exponent (t : TowerTree) : t.operand >>= Operand.asExponent = t.value := by
  cases t with
  | atom a =>
    cases a with
    | unknown => rfl
    | number s v spelling => rcases s with _ | _ | _ <;> rfl
  | power base exponent =>
    cases base with
    | unknown =>
      cases h : exponent.value <;> simp [TowerTree.operand, TowerTree.value, AtomTree.value,
        Operand.asExponent, h]
    | number s v spelling =>
      cases h : (TowerTree.power (.number s v spelling) exponent).value <;>
        simp [TowerTree.operand, h, Operand.asExponent]

/-- A tower in an exponent is refused when the unknown is its base. -/
theorem unknown_not_mem_of_value {t : TowerTree} {v : Float} (h : t.value = .ok v) :
    .unknown ∉ t.atoms := by
  induction t generalizing v with
  | atom a =>
    cases a with
    | unknown => cases h
    | number => simp [TowerTree.atoms]
  | power base exponent ih =>
    obtain ⟨e, he, h⟩ := bind_eq_ok.mp h
    obtain ⟨b, hb, h⟩ := bind_eq_ok.mp h
    cases base with
    | unknown => cases hb
    | number => simpa [TowerTree.atoms] using ih he

theorem read_tower_tokens (t : TowerTree) {levels : Nat} {rest : List Token}
    (hl : t.atoms.length ≤ levels) (hr : rest.head? ≠ some .caret) :
    (Operand.readTower levels (t.tokens ++ rest)).result = t.operand.map (·, rest) := by
  induction t generalizing levels with
  | atom a =>
    obtain ⟨levels, rfl⟩ : ∃ n, levels = n + 1 := ⟨levels - 1, by simp [TowerTree.atoms] at hl; omega⟩
    rw [TowerTree.tokens, Operand.read_tower_alone (read_atom_tokens a rest) hr, ← alone_eq_operand]
    rfl
  | power base exponent ih =>
    obtain ⟨levels, rfl⟩ : ∃ n, levels = n + 1 := ⟨levels - 1, by simp [TowerTree.atoms] at hl; omega⟩
    have hl' : exponent.atoms.length ≤ levels := by simpa [TowerTree.atoms] using hl
    simp only [TowerTree.tokens, Operand.readTower, List.append_assoc, List.cons_append,
      read_atom_tokens, Traced.result_bind, Traced.result_ofResult, ok_bind, ih hl']
    -- a failure of the exponent comes before anything that the base could fail with
    have hv := operand_as_exponent exponent
    cases ho : exponent.operand with
    | error f =>
      rw [ho, error_bind] at hv
      cases base with
      | unknown => simp [TowerTree.operand, ← hv]
      | number => simp [TowerTree.operand, TowerTree.value, ← hv]
    | ok o =>
      rw [ho, ok_bind] at hv
      simp only [map_ok, ok_bind, hv]
      cases he : exponent.value with
      | error f =>
        cases base with
        | unknown => simp [TowerTree.operand, he]
        | number => simp [TowerTree.operand, TowerTree.value, he]
      | ok e =>
        rw [← raised_result base exponent he, ok_bind]
        cases (base.atom.raised e).result <;> rfl

/-- What is read as a tower is the tokens of one, with the unknown at most at its base. -/
theorem read_tower_tree {levels : Nat} {ts rest : List Token} {o : Operand}
    (h : (Operand.readTower levels ts).result = .ok (o, rest)) :
    ∃ t : TowerTree, t.atoms.length ≤ levels ∧ .unknown ∉ t.atoms.tail ∧
      ts = t.tokens ++ rest ∧ rest.head? ≠ some .caret := by
  induction levels generalizing ts rest o with
  | zero => cases h
  | succ levels ih =>
    rcases Operand.read_tower_ok_iff.mp (Traced.eq_mk_of_result h) with ⟨a, ha, hc, -⟩ |
      ⟨a, inner, top, e, log, _, ha, ht, he, -⟩
    · obtain ⟨base, rfl, -⟩ := read_atom_tree ha
      exact ⟨.atom base, by simp [TowerTree.atoms], by simp [TowerTree.atoms], rfl, hc⟩
    · obtain ⟨base, rfl, -⟩ := read_atom_tree ha
      have ht := congrArg Traced.result ht
      obtain ⟨t, hl, hu, rfl, hc⟩ := ih ht
      rw [read_tower_tokens t hl hc, map_eq_ok] at ht
      obtain ⟨_, ho, hp⟩ := ht
      cases hp
      have hv : t.value = .ok e := by rw [← operand_as_exponent, ho]; exact he
      refine ⟨.power base t, ?_, unknown_not_mem_of_value hv, ?_, hc⟩
      · simpa [TowerTree.atoms] using hl
      · simp [TowerTree.tokens]

/-! ## Terms -/

/-- Tokens that cannot continue a term. -/
def EndsTerm (ts : List Token) : Prop :=
  ts.head? ≠ some .caret ∧ ts.head? ≠ some .times ∧ ts.head? ≠ some .divide

theorem read_operands_end {ts : List Token} (h : EndsTerm ts) :
    Term.readOperands ts = pure (⟨[], []⟩, ts) := by
  apply Term.read_operands_stop
  · rintro rest rfl
    exact h.2.1 rfl
  · rintro rest rfl
    exact h.2.2 rfl

theorem divisor_tokens_head {ds : List TowerTree} {tail : List Token}
    (h : tail.head? ≠ some .caret) : (divisorTokens ds ++ tail).head? ≠ some .caret := by
  cases ds with
  | nil => exact h
  | cons t ds => simp [divisorTokens]

theorem factor_tokens_head {fs : List FactorTree} {tail : List Token}
    (h : tail.head? ≠ some .caret) : (factorTokens fs ++ tail).head? ≠ some .caret := by
  cases fs with
  | nil => exact h
  | cons f fs => simp [factorTokens]

theorem read_divisors {ds : List TowerTree} {tail : List Token}
    (hd : ∀ t ∈ ds, t.atoms.length ≤ towerLimit) (ht : tail.head? ≠ some .caret) :
    (Term.readOperands (divisorTokens ds ++ tail)).result = (do
      let below ← ds.mapM TowerTree.operand
      let p ← (Term.readOperands tail).result
      return (⟨p.1.above, below ++ p.1.below⟩, p.2)) := by
  induction ds with
  | nil =>
    simp only [divisorTokens, List.flatMap_nil, List.nil_append, List.mapM_nil, pure_bind]
    cases (Term.readOperands tail).result <;> rfl
  | cons t ds ih =>
    have hs : divisorTokens (t :: ds) ++ tail =
        .divide :: (t.tokens ++ (divisorTokens ds ++ tail)) := by simp [divisorTokens]
    have hh : (divisorTokens ds ++ tail).head? ≠ some .caret := divisor_tokens_head ht
    rw [hs, Term.read_operands_divide, Traced.result_bind, Operand.read,
      read_tower_tokens t (hd t (List.mem_cons_self ..)) hh, List.mapM_cons]
    have ih := ih fun u hu => hd u (List.mem_cons_of_mem t hu)
    cases t.operand with
    | error e => rfl
    | ok o =>
      simp only [map_ok, ok_bind, Traced.result_map, ih]
      cases ds.mapM TowerTree.operand with
      | error e => rfl
      | ok below => cases (Term.readOperands tail).result <;> rfl

theorem read_factors {fs : List FactorTree} {rest : List Token}
    (hf : ∀ f ∈ fs, ∀ t ∈ f.towers, t.atoms.length ≤ towerLimit) (hr : EndsTerm rest) :
    (Term.readOperands (factorTokens fs ++ rest)).result =
      (fs.mapM FactorTree.fraction).map fun gs => (concat gs, rest) := by
  induction fs with
  | nil => exact congrArg Traced.result (read_operands_end hr)
  | cons f fs ih =>
    have hs : factorTokens (f :: fs) ++ rest =
        .times :: (f.first.tokens ++ (divisorTokens f.divisors ++ (factorTokens fs ++ rest))) := by
      simp [factorTokens, FactorTree.tokens]
    have hh : (factorTokens fs ++ rest).head? ≠ some .caret := factor_tokens_head hr.1
    have hl := hf f (List.mem_cons_self ..)
    rw [hs, Term.read_operands_times, Traced.result_bind, Operand.read,
      read_tower_tokens f.first (hl _ (List.mem_cons_self ..)) (divisor_tokens_head hh),
      List.mapM_cons, FactorTree.fraction]
    have hd := read_divisors (fun t ht => hl t (List.mem_cons_of_mem _ ht)) hh
    have ih := ih fun g hg => hf g (List.mem_cons_of_mem f hg)
    cases f.first.operand with
    | error e => rfl
    | ok o =>
      simp only [map_ok, ok_bind, Traced.result_map, hd, ih]
      cases f.divisors.mapM TowerTree.operand with
      | error e => rfl
      | ok below => cases fs.mapM FactorTree.fraction <;> rfl

theorem term_value_eq_reduce (t : TermTree) :
    t.value = ((t.first :: t.others).mapM FactorTree.fraction).map concat >>= Fraction.reduce := rfl

theorem read_term_tokens {t : TermTree} {rest : List Token}
    (ht : ∀ u ∈ t.towers, u.atoms.length ≤ towerLimit) (hr : EndsTerm rest) :
    (Term.read (t.tokens ++ rest)).result = t.value.map (·, rest) := by
  have hs : t.tokens ++ rest = t.first.first.tokens ++
      (divisorTokens t.first.divisors ++ (factorTokens t.others ++ rest)) := by
    simp [TermTree.tokens, FactorTree.tokens]
  have hh : (factorTokens t.others ++ rest).head? ≠ some .caret := factor_tokens_head hr.1
  have hfirst : ∀ u ∈ t.first.towers, u.atoms.length ≤ towerLimit := fun u hu =>
    ht u (List.mem_append_left _ hu)
  have hothers : ∀ f ∈ t.others, ∀ u ∈ f.towers, u.atoms.length ≤ towerLimit := fun f hf u hu =>
    ht u (List.mem_append_right _ (List.mem_flatMap.mpr ⟨f, hf, hu⟩))
  have hd := read_divisors (fun u hu => hfirst u (List.mem_cons_of_mem _ hu)) hh
  rw [term_value_eq_reduce, Term.read, hs, Traced.result_bind, Operand.read,
    read_tower_tokens _ (hfirst _ (List.mem_cons_self ..)) (divisor_tokens_head hh),
    List.mapM_cons, FactorTree.fraction]
  cases t.first.first.operand with
  | error e => rfl
  | ok o =>
    simp only [map_ok, ok_bind, Traced.result_bind, hd, read_factors hothers hr]
    cases t.first.divisors.mapM TowerTree.operand with
    | error e => rfl
    | ok below =>
      cases t.others.mapM FactorTree.fraction with
      | error e => rfl
      | ok gs =>
        change ((concat (⟨[o], below⟩ :: gs)).reduce >>= fun v => Except.ok (v, rest)) =
          (concat (⟨[o], below⟩ :: gs)).reduce.map (·, rest)
        cases (concat (⟨[o], below⟩ :: gs)).reduce <;> rfl

theorem read_operands_tree {ts rest : List Token} {f : Fraction}
    (h : (Term.readOperands ts).result = .ok (f, rest)) :
    ∃ ds fs, (∀ t ∈ ds, t.Admissible) ∧ (∀ g ∈ fs, ∀ t ∈ g.towers, t.Admissible) ∧
      ts = divisorTokens ds ++ (factorTokens fs ++ rest) := by
  fun_induction Term.readOperands ts generalizing f rest with
  | case1 => cases h
  | case2 rest₁ log o after ho _ ih =>
    -- after a product sign the divisors read so far belong to a new factor
    obtain ⟨⟨g, rest'⟩, hg, hp⟩ := map_eq_ok.mp h
    cases hp
    obtain ⟨ds, fs, hds, hfs, rfl⟩ := ih hg
    obtain ⟨t, hl, hu, rfl, -⟩ := read_tower_tree (congrArg Traced.result ho)
    refine ⟨[], ⟨t, ds⟩ :: fs, by simp, ?_, by simp [divisorTokens, factorTokens, FactorTree.tokens]⟩
    intro g hg
    rcases List.mem_cons.mp hg with rfl | hg
    · intro u hu'
      rcases List.mem_cons.mp hu' with rfl | hu'
      · exact ⟨hl, hu⟩
      · exact hds u hu'
    · exact hfs g hg
  | case3 => cases h
  | case4 rest₁ log o after ho _ ih =>
    -- after a quotient sign the factor at hand has one more divisor
    obtain ⟨⟨g, rest'⟩, hg, hp⟩ := map_eq_ok.mp h
    cases hp
    obtain ⟨ds, fs, hds, hfs, rfl⟩ := ih hg
    obtain ⟨t, hl, hu, rfl, -⟩ := read_tower_tree (congrArg Traced.result ho)
    refine ⟨t :: ds, fs, ?_, hfs, by simp [divisorTokens]⟩
    intro u hu'
    rcases List.mem_cons.mp hu' with rfl | hu'
    · exact ⟨hl, hu⟩
    · exact hds u hu'
  | case5 =>
    cases h
    exact ⟨[], [], by simp, by simp, rfl⟩

theorem read_term_tree {ts rest : List Token} {v : Term}
    (h : (Term.read ts).result = .ok (v, rest)) :
    ∃ t : TermTree, (∀ u ∈ t.towers, u.Admissible) ∧ ts = t.tokens ++ rest := by
  obtain ⟨o, after, f, _, _, ho, hf, -⟩ := Term.read_ok_iff.mp (Traced.eq_mk_of_result h)
  obtain ⟨ds, fs, hds, hfs, rfl⟩ := read_operands_tree (congrArg Traced.result hf)
  obtain ⟨t, hl, hu, rfl, -⟩ := read_tower_tree (congrArg Traced.result ho)
  refine ⟨⟨⟨t, ds⟩, fs⟩, ?_, by simp [TermTree.tokens, FactorTree.tokens]⟩
  intro u hu'
  rcases List.mem_append.mp hu' with hu' | hu'
  · rcases List.mem_cons.mp hu' with rfl | hu'
    · exact ⟨hl, hu⟩
    · exact hds u hu'
  · obtain ⟨g, hg, hu'⟩ := List.mem_flatMap.mp hu'
    exact hfs g hg u hu'

end Trinomial.Grammar
