import Trinomial.Proofs.Grammar.Interleaving

/-! # What the reading of a side notes

A power notes the square roots it takes, and nothing else is noted inside a term. A complete term is noted
behind its powers, as it is added to the table; a term that fails may have noted powers, and with them the
records of its side end.
-/
set_option autoImplicit false

namespace Trinomial

/-! ## Powers -/

/-- The record of a power that was reduced to a square root. -/
def Record.IsPower : Record → Prop
  | fractionalPower .. => True
  | _ => False

namespace Traced
variable {α β : Type}

theorem log_bind_ok {x : Traced α} {a : α} (f : α → Traced β) (h : x.result = .ok a) :
    (x >>= f).log = x.log ++ (f a).log := by
  rw [eq_mk_of_result h, bind_ok]

theorem log_bind_error {x : Traced α} {e : Failure} (f : α → Traced β) (h : x.result = .error e) :
    (x >>= f).log = x.log := by
  rw [eq_mk_of_result h, bind_error]

theorem log_bind_pure (x : Traced α) (f : α → β) : (x >>= fun a => pure (f a)).log = x.log := by
  cases h : x.result with
  | error e => exact log_bind_error _ h
  | ok a => exact (log_bind_ok _ h).trans (List.append_nil _)

/-- Nothing but powers was noted. -/
def NotesPowers (x : Traced α) : Prop := ∀ r ∈ x.log, r.IsPower

theorem notes_powers_of_nil {x : Traced α} (h : x.log = []) : x.NotesPowers := by
  intro r hr
  rw [h] at hr
  cases hr

theorem of_result_notes_powers (r : Except Failure α) : (ofResult r).NotesPowers :=
  notes_powers_of_nil rfl

theorem NotesPowers.bind {x : Traced α} {f : α → Traced β} (hx : x.NotesPowers)
    (hf : ∀ a, (f a).NotesPowers) : (x >>= f).NotesPowers := by
  intro r hr
  cases h : x.result with
  | error e =>
    rw [log_bind_error f h] at hr
    exact hx r hr
  | ok a =>
    rw [log_bind_ok f h] at hr
    rcases List.mem_append.mp hr with hr | hr
    · exact hx r hr
    · exact hf a r hr

theorem NotesPowers.prepend {log : List Record} {x : Traced α} {f : α → β}
    (hlog : ∀ r ∈ log, r.IsPower) (hx : x.NotesPowers) : ((x.map f).prepend log).NotesPowers := by
  intro r hr
  rcases List.mem_append.mp hr with hr | hr
  · exact hlog r hr
  · exact hx r hr

end Traced

open Traced (NotesPowers notes_powers_of_nil of_result_notes_powers)

namespace Number

theorem root_notes_powers {size exponent epsilon : Float} {x : Traced Float} {f : Float → Float}
    (h : x.NotesPowers) : NotesPowers do
      Traced.note (.fractionalPower size exponent epsilon)
      return f (← Traced.ofResult (squareRoot (← x))) := by
  refine NotesPowers.bind (fun r hr => ?_) fun _ => h.bind fun y => ?_
  · cases List.mem_singleton.mp hr
    trivial
  · exact (of_result_notes_powers _).bind fun y => notes_powers_of_nil rfl

theorem power_within_notes_powers {depth : ℕ} {base exponent epsilon : Float} {x : Traced Float}
    (h : powerWithin depth base exponent epsilon = some x) : x.NotesPowers := by
  induction depth generalizing base exponent epsilon x with
  | zero => cases h
  | succ depth ih =>
    have nested : ∀ {b p eps : Float} {f : Float → Float},
        (powerWithin depth b p eps).map (fun y => do return f (← y)) = some x → x.NotesPowers := by
      intro b p eps f h
      obtain ⟨y, hy, rfl⟩ := Option.map_eq_some_iff.mp h
      exact (ih hy).bind fun _ => notes_powers_of_nil rfl
    simp only [powerWithin] at h
    generalize (if base < 0.0 then -base else base) = size at h
    split_ifs at h
    · cases h; exact notes_powers_of_nil rfl
    · cases h; exact notes_powers_of_nil rfl
    · cases h; exact notes_powers_of_nil rfl
    · cases h; exact notes_powers_of_nil rfl
    · cases h; exact notes_powers_of_nil rfl
    · cases h; exact notes_powers_of_nil rfl
    · exact nested h
    · exact nested h
    · exact nested h
    · cases h
      exact root_notes_powers (x := pure size) (notes_powers_of_nil rfl)
    · obtain ⟨y, hy, rfl⟩ := Option.map_eq_some_iff.mp h
      exact root_notes_powers (ih hy)

theorem power_notes_powers (base exponent : Float) : (power base exponent).NotesPowers := by
  unfold power
  cases h : powerWithin powerDepth base exponent tolerance with
  | none => exact notes_powers_of_nil rfl
  | some x => exact power_within_notes_powers h

end Number

/-! ## Terms that may fail -/

theorem Atom.raised_notes_powers (base : Atom) (exponent : Float) : (base.raised exponent).NotesPowers := by
  cases base with
  | unknown => exact notes_powers_of_nil rfl
  | number v => exact (Number.power_notes_powers v exponent).bind fun _ => notes_powers_of_nil rfl

theorem Operand.read_tower_notes_powers (levels : ℕ) (ts : List Token) :
    (readTower levels ts).NotesPowers := by
  induction levels generalizing ts with
  | zero => exact notes_powers_of_nil rfl
  | succ levels ih =>
    rw [readTower]
    refine (of_result_notes_powers _).bind fun p => ?_
    obtain ⟨base, rest⟩ := p
    dsimp only
    split
    · refine (ih _).bind fun p => ?_
      refine (of_result_notes_powers _).bind fun exponent => ?_
      exact (Atom.raised_notes_powers base exponent).bind fun _ => notes_powers_of_nil rfl
    · exact notes_powers_of_nil rfl

namespace Term

theorem read_operands_notes_powers (ts : List Token) : (readOperands ts).NotesPowers := by
  have operand {rest : List Token} {x : Traced (Operand × List Token)} (h : Operand.read rest = x) :
      x.NotesPowers := h ▸ Operand.read_tower_notes_powers towerLimit rest
  fun_induction readOperands ts with
  | case1 rest log e h => exact operand h
  | case2 rest log o after h _ ih => exact ih.prepend (operand h)
  | case3 rest log e h => exact operand h
  | case4 rest log o after h _ ih => exact ih.prepend (operand h)
  | case5 => exact notes_powers_of_nil rfl

theorem read_notes_powers (ts : List Token) : (read ts).NotesPowers := by
  refine (Operand.read_tower_notes_powers _ _).bind fun _ => ?_
  refine (read_operands_notes_powers _).bind fun _ => ?_
  exact (of_result_notes_powers _).bind fun _ => notes_powers_of_nil rfl

end Term

namespace Grammar

/-! ## Complete terms -/

/-- A tower computed from the top down. -/
def TowerTree.run : TowerTree → Traced Float
  | atom a => .ofResult a.value
  | power base exponent => do
    let e ← exponent.run
    let v ← Traced.ofResult base.value
    Number.power v e

theorem tower_run_result (t : TowerTree) : t.run.result = t.value := by
  induction t with
  | atom a => rfl
  | power base exponent ih =>
    simp only [TowerTree.run, TowerTree.value, Traced.result_bind, Traced.result_ofResult, ih]

/-- What the powers of a tower note. -/
def TowerTree.records (t : TowerTree) : List Record := t.run.log

/-- What the powers of a term note. -/
def TermTree.records (t : TermTree) : List Record := t.towers.flatMap TowerTree.records

theorem tower_run_notes_powers (t : TowerTree) : t.run.NotesPowers := by
  induction t with
  | atom a => exact of_result_notes_powers _
  | power base exponent ih =>
    exact ih.bind fun e => (of_result_notes_powers _).bind fun v => Number.power_notes_powers v e

theorem term_records_are_powers (t : TermTree) : ∀ r ∈ t.records, r.IsPower := by
  intro r hr
  obtain ⟨u, -, hr⟩ := List.mem_flatMap.mp hr
  exact tower_run_notes_powers u r hr

theorem raised_log (a : AtomTree) (e : Float) : (a.atom.raised e).log =
    (Traced.ofResult a.value >>= fun v => Number.power v e).log := by
  cases a with
  | unknown => rfl
  | number s v spelling =>
    have hpower (b : Float) : ((Atom.number b).raised e).log = (Number.power b e).log :=
      Traced.log_bind_pure _ _
    rcases s with _ | _ | _ <;> exact hpower _

theorem exists_level {t : TowerTree} {levels : ℕ} (hl : t.atoms.length ≤ levels) :
    ∃ n, levels = n + 1 := by
  have hpos : 0 < t.atoms.length := by cases t <;> exact Nat.succ_pos _
  exact ⟨levels - 1, by omega⟩

theorem read_tower_log (t : TowerTree) {levels : ℕ} {rest : List Token}
    (hl : t.atoms.length ≤ levels) (hr : rest.head? ≠ some .caret) :
    (Operand.readTower levels (t.tokens ++ rest)).log = t.records := by
  induction t generalizing levels with
  | atom a =>
    obtain ⟨levels, rfl⟩ := exists_level hl
    rw [TowerTree.tokens, Operand.read_tower_alone (read_atom_tokens a rest) hr]
    rfl
  | power base exponent ih =>
    obtain ⟨levels, rfl⟩ := exists_level hl
    have hl' : exponent.atoms.length ≤ levels := by simpa [TowerTree.atoms] using hl
    have hread := read_atom_tokens base (.caret :: (exponent.tokens ++ rest))
    have hresult := read_tower_tokens exponent hl' hr
    have hrun := tower_run_result exponent
    rw [TowerTree.tokens, List.append_assoc, List.cons_append, Operand.read_tower_power hread,
      TowerTree.records, TowerTree.run]
    cases ho : exponent.operand with
    | error f =>
      rw [← operand_as_exponent, ho] at hrun
      rw [ho] at hresult
      rw [Traced.log_bind_error _ hrun, Traced.log_bind_error _ hresult, ih hl']
      rfl
    | ok o =>
      rw [← operand_as_exponent, ho, ok_bind] at hrun
      rw [ho] at hresult
      rw [Traced.log_bind_ok _ hresult, ih hl']
      cases he : o.asExponent with
      | error f =>
        rw [he] at hrun
        rw [Traced.log_bind_error _ hrun]
        exact List.append_nil _
      | ok e =>
        rw [he] at hrun
        rw [Traced.log_bind_ok _ hrun, ← raised_log]
        exact congrArg (exponent.records ++ ·) (Traced.log_bind_pure _ _)

/-- A bounded tower whose powers have a result. -/
structure TowerTree.Complete (u : TowerTree) : Prop where
  bounded : u.atoms.length ≤ towerLimit
  defined : u.operand.isOk = true

theorem read_complete_tower {u : TowerTree} {rest : List Token} (hu : u.Complete)
    (hr : rest.head? ≠ some .caret) :
    ∃ o, Operand.read (u.tokens ++ rest) = ⟨u.records, .ok (o, rest)⟩ := by
  have hresult := read_tower_tokens u hu.bounded hr
  have hdefined := hu.defined
  cases ho : u.operand with
  | error e =>
    rw [ho] at hdefined
    cases hdefined
  | ok o =>
    rw [ho] at hresult
    exact ⟨o, by rw [← read_tower_log u hu.bounded hr]; exact Traced.eq_mk_of_result hresult⟩

theorem read_divisors_log {ds : List TowerTree} {tail : List Token} (hd : ∀ u ∈ ds, u.Complete)
    (ht : tail.head? ≠ some .caret) : (Term.readOperands (divisorTokens ds ++ tail)).log =
      ds.flatMap TowerTree.records ++ (Term.readOperands tail).log := by
  induction ds with
  | nil => rfl
  | cons u ds ih =>
    have hs : divisorTokens (u :: ds) ++ tail =
        .divide :: (u.tokens ++ (divisorTokens ds ++ tail)) := by simp [divisorTokens]
    obtain ⟨hu, hd⟩ := List.forall_mem_cons.mp hd
    obtain ⟨o, ho⟩ := read_complete_tower hu (divisor_tokens_head ht)
    rw [hs, Term.read_operands_divide, ho, Traced.bind_ok, List.flatMap_cons, List.append_assoc, ← ih hd]
    rfl

theorem read_factors_log {fs : List FactorTree} {rest : List Token}
    (hf : ∀ f ∈ fs, ∀ u ∈ f.towers, u.Complete) (hr : EndsTerm rest) :
    (Term.readOperands (factorTokens fs ++ rest)).log =
      (fs.flatMap FactorTree.towers).flatMap TowerTree.records := by
  induction fs with
  | nil => exact congrArg Traced.log (read_operands_end hr)
  | cons f fs ih =>
    have hs : factorTokens (f :: fs) ++ rest =
        .times :: (f.first.tokens ++ (divisorTokens f.divisors ++ (factorTokens fs ++ rest))) := by
      simp [factorTokens, FactorTree.tokens]
    have hh : (factorTokens fs ++ rest).head? ≠ some .caret := factor_tokens_head hr.1
    obtain ⟨hf, hfs⟩ := List.forall_mem_cons.mp hf
    obtain ⟨hfirst, hdivisors⟩ := List.forall_mem_cons.mp hf
    obtain ⟨o, ho⟩ := read_complete_tower hfirst (divisor_tokens_head hh)
    have hlog := read_divisors_log hdivisors hh
    rw [ih hfs] at hlog
    rw [hs, Term.read_operands_times, ho, Traced.bind_ok, List.flatMap_cons, List.flatMap_append,
      FactorTree.towers, List.flatMap_cons, List.append_assoc, ← hlog]
    rfl

theorem read_complete_term {t : TermTree} {v : Term} {rest : List Token}
    (ht : ∀ u ∈ t.towers, u.Admissible) (hv : t.value = .ok v) (hr : EndsTerm rest) :
    Term.read (t.tokens ++ rest) = ⟨t.records, .ok (v, rest)⟩ := by
  have hresult := read_term_tokens (fun u hu => (ht u hu).1) hr
  rw [hv] at hresult
  have hcomplete : ∀ u ∈ t.first.towers ++ t.others.flatMap FactorTree.towers, u.Complete :=
    fun u hu => ⟨(ht u hu).1, defined_of_term_value hv u hu⟩
  obtain ⟨hfirst, hothers⟩ := List.forall_mem_append.mp hcomplete
  obtain ⟨htower, hdivisors⟩ := List.forall_mem_cons.mp hfirst
  have hs : t.tokens ++ rest = t.first.first.tokens ++
      (divisorTokens t.first.divisors ++ (factorTokens t.others ++ rest)) := by
    simp [TermTree.tokens, FactorTree.tokens]
  have hh : (factorTokens t.others ++ rest).head? ≠ some .caret := factor_tokens_head hr.1
  obtain ⟨o, ho⟩ := read_complete_tower htower (divisor_tokens_head hh)
  have hlog := read_divisors_log hdivisors hh
  rw [read_factors_log (fun f hf u hu => hothers u (List.mem_flatMap.mpr ⟨f, hf, hu⟩)) hr] at hlog
  obtain ⟨first, after, others, log₁, log₂, hread, hrest, -, hterm⟩ :=
    Term.read_ok_iff.mp (Traced.eq_mk_of_result hresult)
  rw [hs, ho] at hread
  cases hread
  rw [hrest] at hlog
  dsimp only at hlog
  rw [Traced.eq_mk_of_result hresult, hterm, hlog, TermTree.records, TermTree.towers,
    List.flatMap_append, FactorTree.towers, List.flatMap_cons, List.append_assoc]
  rfl

/-! ## Sides -/

/-- Terms that are added in order, and what is noted: the powers of each, then the term as it counts. -/
inductive Adds : List (Float × TermTree) → List Term → List Record → Prop where
  | nil : Adds [] [] []
  | cons {sign : Float} {t : TermTree} {v : Term} {ps : List (Float × TermTree)} {vs : List Term}
      {rs : List Record} (hv : t.value = .ok v) (h : Adds ps vs rs) :
    Adds ((sign, t) :: ps) (v.scale sign :: vs) (t.records ++ .term (v.scale sign) :: rs)

/-- What makes a side fail behind complete terms, and what is noted there: the powers of a term that fails,
and nothing for a token that cannot follow a term. -/
inductive Stops : List Token → Failure → List Record → Prop where
  | term {g : Sign} {rest : List Token} {e : Failure} (h : (Term.read rest).result = .error e) :
    Stops (g.token :: rest) e (Term.read rest).log
  | token {found : Token} {rest : List Token}
    (h : found ∉ [Token.plus, .minus, .times, .divide, .caret]) :
    Stops (found :: rest) (.malformed (.afterTerm found)) []

/-- What reading terms comes to: all of them, or those in front of what makes the side fail. -/
inductive Reads (side sign : Float) : List Token → SideReading → Prop where
  | whole {s : SideTree} {vs : List Term} {rs : List Record} (hs : s.Admissible)
    (h : Adds (leading side sign (some s)) vs rs) : Reads side sign s.tokens ⟨vs, rs, none⟩
  | first {ts : List Token} {e : Failure} (h : (Term.read ts).result = .error e) :
    Reads side sign ts ⟨[], (Term.read ts).log, some e⟩
  | behind {s : SideTree} {rest : List Token} {e : Failure} {vs : List Term} {rs qs : List Record}
    (hs : s.Admissible) (h : Adds (leading side sign (some s)) vs rs) (hrest : Stops rest e qs) :
    Reads side sign (s.tokens ++ rest) ⟨vs, rs ++ qs, some e⟩

section Sides
variable {side sign : Float} {ts rest : List Token} {t : TermTree} {v : Term} {g : Sign}
  {log : List Record}

theorem one_admissible (ht : ∀ u ∈ t.towers, u.Admissible) : (⟨t, []⟩ : SideTree).Admissible := by
  have hone : (Grammar.front t .plus none).Admissible := front_admissible ht nofun
  exact hone

theorem Adds.one (hv : t.value = .ok v) : Adds (leading side sign (some ⟨t, []⟩)) [v.scale sign]
    (t.records ++ [.term (v.scale sign)]) := .cons hv .nil

theorem Reads.one (ht : ∀ u ∈ t.towers, u.Admissible) (hv : t.value = .ok v) :
    Reads side sign t.tokens (SideReading.cons (v.scale sign) t.records ⟨[], [], none⟩) := by
  rw [← one_tokens]
  exact .whole (one_admissible ht) (.one hv)

theorem Reads.behind_one {e : Failure} {qs : List Record} (ht : ∀ u ∈ t.towers, u.Admissible)
    (hv : t.value = .ok v) (h : Stops rest e qs) : Reads side sign (t.tokens ++ rest)
      (SideReading.cons (v.scale sign) t.records ⟨[], qs, some e⟩) := by
  have hread : Reads side sign _ _ := .behind (one_admissible ht) (.one hv) h
  rwa [one_tokens, List.append_assoc] at hread

/-- One more complete term in front. -/
theorem Reads.front {r : SideReading} (ht : ∀ u ∈ t.towers, u.Admissible) (hv : t.value = .ok v)
    (h : Reads side (g.apply side) rest r) :
    Reads side sign (t.tokens ++ g.token :: rest) (SideReading.cons (v.scale sign) t.records r) := by
  have hfront {s : SideTree} (hs : s.Admissible) : (Grammar.front t g (some s)).Admissible :=
    front_admissible ht fun u hu => Option.some.inj hu ▸ hs
  cases h with
  | whole hs h =>
    rw [← front_tokens]
    exact .whole (hfront hs) (by rw [leading_front]; exact .cons hv h)
  | first h => exact .behind_one ht hv (.term h)
  | @behind s rest e vs rs qs hs h hrest =>
    have hread : Reads side sign _ _ :=
      .behind (hfront hs) (by rw [leading_front]; exact .cons hv h) hrest
    rwa [front_tokens, List.append_assoc, List.append_assoc] at hread

/-- What was read as a term in front of `rest` is a complete term, and what was noted are its powers. -/
theorem read_term_records (h : Term.read ts = ⟨log, .ok (v, rest)⟩) : ∃ t : TermTree,
    (∀ u ∈ t.towers, u.Admissible) ∧ ts = t.tokens ++ rest ∧ t.value = .ok v ∧ log = t.records := by
  have hresult := congrArg Traced.result h
  obtain ⟨t, ht, rfl, hv⟩ := read_term_value hresult
  rw [read_complete_term ht hv (term_end hresult)] at h
  cases h
  exact ⟨t, ht, rfl, hv, rfl⟩

theorem reads_terms (side sign : Float) (ts : List Token) :
    Reads side sign ts (SideReading.readTerms side sign ts) := by
  fun_induction SideReading.readTerms side sign ts with
  | case1 sign ts log e h =>
    have hread : Reads side sign ts _ := .first (congrArg Traced.result h)
    rwa [h] at hread
  | case2 sign ts log v h =>
    obtain ⟨t, ht, rfl, hv, rfl⟩ := read_term_records h
    rw [List.append_nil]
    exact .one ht hv
  | case3 sign ts log v rest h _ ih =>
    obtain ⟨t, ht, rfl, hv, rfl⟩ := read_term_records h
    exact ih.front (g := .plus) ht hv
  | case4 sign ts log v rest h _ ih =>
    obtain ⟨t, ht, rfl, hv, rfl⟩ := read_term_records h
    exact ih.front (g := .minus) ht hv
  | case5 sign ts log v found rest hplus hminus h =>
    obtain ⟨t, ht, rfl, hv, rfl⟩ := read_term_records h
    refine .behind_one ht hv (.token ?_)
    exact (not_operator_iff rest).mpr ⟨term_end (congrArg Traced.result h), hplus, hminus⟩

/-- What reading a side comes to: the side is noted first, with all its tokens. -/
inductive ReadsSide (sign : Float) : List Token → SideReading → Prop where
  | empty : ReadsSide sign [] ⟨[], [.side sign []], some (.malformed .emptySide)⟩
  | terms {ts : List Token} {r : SideReading} (hts : ts ≠ []) (h : Reads sign sign ts r) :
    ReadsSide sign ts ⟨r.terms, .side sign ts :: r.log, r.failure?⟩

theorem reads_side (sign : Float) (ts : List Token) : ReadsSide sign ts (SideReading.read sign ts) := by
  cases ts with
  | nil => exact .empty
  | cons t ts => exact .terms (List.cons_ne_nil t ts) (reads_terms sign sign _)

end Sides

/-! ## The terms in the records -/

/-- The record is of a term or of a power in it. -/
def OfTerm : Record → Prop
  | .term _ => True
  | r => r.IsPower

/-- The terms that were added, in order. -/
def addedTerms (log : List Record) : List Term := log.filterMap fun
  | .term t => some t
  | _ => none

theorem added_terms_append (log log' : List Record) :
    addedTerms (log ++ log') = addedTerms log ++ addedTerms log' := List.filterMap_append

theorem added_terms_powers {log : List Record} (h : ∀ r ∈ log, r.IsPower) : addedTerms log = [] := by
  rw [addedTerms, List.filterMap_eq_nil_iff]
  intro r hr
  cases r with
  | term t => cases h _ hr
  | _ => rfl

theorem of_term_of_power {r : Record} (h : r.IsPower) : OfTerm r := by
  cases r with
  | fractionalPower => trivial
  | _ => cases h

section Added
variable {side sign : Float} {ts rest : List Token} {ps : List (Float × TermTree)} {vs : List Term}
  {rs qs : List Record} {e : Failure} {r : SideReading}

theorem Adds.added (h : Adds ps vs rs) : addedTerms rs = vs ∧ ∀ q ∈ rs, OfTerm q := by
  induction h with
  | nil => exact ⟨rfl, nofun⟩
  | @cons sign t v ps vs rs hv h ih =>
    have hpowers := term_records_are_powers t
    refine ⟨?_, List.forall_mem_append.mpr ⟨fun q hq => of_term_of_power (hpowers q hq), ?_⟩⟩
    · rw [added_terms_append, added_terms_powers hpowers]
      exact congrArg (v.scale sign :: ·) ih.1
    · exact List.forall_mem_cons.mpr ⟨trivial, ih.2⟩

theorem Stops.powers (h : Stops rest e qs) : ∀ q ∈ qs, q.IsPower := by
  cases h with
  | term => exact Term.read_notes_powers _
  | token => exact nofun

theorem Reads.added (h : Reads side sign ts r) : addedTerms r.log = r.terms ∧ ∀ q ∈ r.log, OfTerm q := by
  cases h with
  | whole hs h => exact h.added
  | first h =>
    have hpowers := Term.read_notes_powers ts
    exact ⟨added_terms_powers hpowers, fun q hq => of_term_of_power (hpowers q hq)⟩
  | behind hs h hrest =>
    obtain ⟨hadded, hrs⟩ := h.added
    refine ⟨?_, List.forall_mem_append.mpr ⟨hrs, fun q hq => of_term_of_power (hrest.powers q hq)⟩⟩
    rw [added_terms_append, hadded, added_terms_powers hrest.powers, List.append_nil]

theorem ReadsSide.added (h : ReadsSide sign ts r) : addedTerms r.log = r.terms := by
  cases h with
  | empty => rfl
  | terms hts h => exact h.added.1

/-- The side itself is the first record, and all the others are of its terms. -/
theorem ReadsSide.log_eq (h : ReadsSide sign ts r) :
    ∃ rs, r.log = .side sign ts :: rs ∧ ∀ q ∈ rs, OfTerm q := by
  cases h with
  | empty => exact ⟨[], rfl, nofun⟩
  | terms hts h => exact ⟨_, rfl, h.added.2⟩

end Added

end Grammar
end Trinomial
