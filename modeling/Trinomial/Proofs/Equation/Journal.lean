import Trinomial.Proofs.Grammar.Joining
import Trinomial.Proofs.Grammar.Records

/-! # The journal of an equation

The records of a run tell how far it came: the left side and its terms, the right side and its terms, the
validated table and last the solution, each only after all before it succeeded. The terms in the records add
up to the table that the run had reached.
-/
set_option autoImplicit false

namespace Trinomial.Equation

open Grammar (ReadsSide addedTerms OfTerm)

/-! ## Runs -/

/-- Both sides were read to their end, and `raw` is the table of their terms. -/
structure ReadsBoth (l r : SideReading) (raw : Table) : Prop where
  left : l.failure? = none
  right : r.failure? = none
  table : Table.ofList (l.terms ++ r.terms) = raw

/-- What a run on two sides comes to and what it notes, by the place where it ends. -/
inductive Runs (l r : SideReading) : Except Failure Solution → List Record → Prop where
  | left {e : Failure} (he : l.failure? = some e) : Runs l r (.error e) l.log
  | right {e : Failure} (hleft : l.failure? = none) (he : r.failure? = some e) :
    Runs l r (.error e) (l.log ++ r.log)
  | refused {raw : Table} {e : Failure} (h : ReadsBoth l r raw) (he : raw.validate = .error e) :
    Runs l r (.error e) (l.log ++ r.log)
  | unsolved {raw t : Table} {e : Failure} (h : ReadsBoth l r raw) (hvalid : raw.validate = .ok t)
    (he : t.solve.result = .error e) : Runs l r (.error e) (l.log ++ r.log ++ [.validated t])
  | solved {raw t : Table} {s : Solution} (h : ReadsBoth l r raw) (hvalid : raw.validate = .ok t)
    (hs : t.solve.result = .ok s) :
    Runs l r (.ok s) (l.log ++ r.log ++ [.validated t, .solved t.a t.b t.c s.outcome s.roots])

section Stages
variable {l r : SideReading} {table table' : Table} {e : Failure}

theorem add_to_failing (he : l.failure? = some e) : l.addTo table = ⟨l.log, .error e⟩ := by
  rw [SideReading.addTo, he]

theorem add_to_whole (h : l.failure? = none) : l.addTo table = ⟨l.log, .ok (l.leaves table)⟩ := by
  rw [SideReading.addTo, h]
  rfl

theorem leaves_both (l r : SideReading) : Table.ofList (l.terms ++ r.terms) = r.leaves (l.leaves {}) :=
  List.foldl_append

theorem solver_log_ok {t : Table} {solution : Solution} (h : t.solve.result = .ok solution) :
    t.solve = ⟨[.solved t.a t.b t.c solution.outcome solution.roots], .ok solution⟩ := by
  rw [Table.result_solve, map_eq_ok] at h
  obtain ⟨found, hfound, rfl⟩ := h
  simp [Table.solve, hfound, Traced.ofResult, Traced.note, Solution.sorted]

theorem solver_log_error {t : Table} (h : t.solve.result = .error e) : t.solve = ⟨[], .error e⟩ := by
  rw [Table.result_solve, map_eq_error] at h
  simp [Table.solve, h, Traced.ofResult]

theorem mem_solver_log {t : Table} {q : Record} : q ∈ t.solve.log ↔
    ∃ s, t.solve.result = .ok s ∧ q = .solved t.a t.b t.c s.outcome s.roots := by
  cases h : t.solve.result with
  | error e => simp [solver_log_error h]
  | ok s => simp [solver_log_ok h]

end Stages

section Solve
variable {s : String} {ts left right : List Token} {e : Failure} {log : List Record} {raw t : Table}

/-- What follows the reading of the two sides. -/
def finish (ts : List Token) (raw : Table) : Traced (Solution × Working) := do
  let table ← Traced.ofResult raw.validate
  Traced.note (.validated table)
  let solution ← table.solve
  return (solution, working ts raw table solution)

theorem finish_refused (h : raw.validate = .error e) : finish ts raw = ⟨[], .error e⟩ := by
  rw [finish, h]
  rfl

theorem finish_unsolved (hvalid : raw.validate = .ok t) (he : t.solve.result = .error e) :
    finish ts raw = ⟨[.validated t], .error e⟩ := by
  rw [finish, hvalid, Traced.ofResult, Traced.bind_ok, solver_log_error he]
  rfl

theorem finish_solved {solution : Solution} (hvalid : raw.validate = .ok t)
    (hs : t.solve.result = .ok solution) : finish ts raw =
      ⟨[.validated t, .solved t.a t.b t.c solution.outcome solution.roots],
        .ok (solution, working ts raw t solution)⟩ := by
  rw [finish, hvalid, Traced.ofResult, Traced.bind_ok, solver_log_ok hs]
  rfl

theorem solve_of_failing (hscan : Token.scanText s = .ok ts) (hraw : rawTable ts = ⟨log, .error e⟩) :
    solve s = ⟨log, .error e⟩ := by
  rw [solve, hscan, Traced.ofResult, Traced.bind_ok, hraw]
  rfl

theorem solve_of_raw (hscan : Token.scanText s = .ok ts) (hraw : rawTable ts = ⟨log, .ok raw⟩) :
    solve s = (finish ts raw).prepend log := by
  rw [solve, hscan, Traced.ofResult, Traced.bind_ok, hraw, Traced.bind_ok]
  rfl

theorem solve_unread (h : Token.scanText s >>= Token.splitSides = .error e) : (solve s).log = [] := by
  rcases bind_eq_error.mp h with hscan | ⟨ts, hscan, hsplit⟩
  · rw [solve, hscan]
    rfl
  · have hraw : rawTable ts = ⟨[], .error e⟩ := by
      rw [rawTable, hsplit]
      rfl
    rw [solve_of_failing hscan hraw]

theorem raw_table_eq (hsplit : Token.splitSides ts = .ok (left, right)) :
    rawTable ts = (SideReading.read 1.0 left).addTo {} >>= (SideReading.read (-1.0) right).addTo := by
  rw [rawTable, hsplit]
  rfl

theorem solve_runs (hscan : Token.scanText s = .ok ts)
    (hsplit : Token.splitSides ts = .ok (left, right)) :
    Runs (SideReading.read 1.0 left) (SideReading.read (-1.0) right)
      ((solve s).result.map Prod.fst) (solve s).log := by
  have hraw := raw_table_eq hsplit
  generalize SideReading.read 1.0 left = l at hraw ⊢
  generalize SideReading.read (-1.0) right = r at hraw ⊢
  cases hleft : l.failure? with
  | some e =>
    rw [add_to_failing hleft, Traced.bind_error] at hraw
    rw [solve_of_failing hscan hraw]
    exact .left hleft
  | none =>
    rw [add_to_whole hleft, Traced.bind_ok] at hraw
    cases hright : r.failure? with
    | some e =>
      rw [add_to_failing hright] at hraw
      rw [solve_of_failing hscan hraw]
      exact .right hleft hright
    | none =>
      rw [add_to_whole hright] at hraw
      have hboth : ReadsBoth l r (r.leaves (l.leaves {})) := ⟨hleft, hright, leaves_both l r⟩
      rw [solve_of_raw hscan hraw]
      generalize r.leaves (l.leaves {}) = raw at hboth
      cases hvalid : raw.validate with
      | error e =>
        have hruns := Runs.refused hboth hvalid
        rw [finish_refused hvalid]
        rwa [← List.append_nil (l.log ++ r.log)] at hruns
      | ok t =>
        cases hsolve : t.solve.result with
        | error e =>
          rw [finish_unsolved hvalid hsolve]
          exact .unsolved hboth hvalid hsolve
        | ok solution =>
          rw [finish_solved hvalid hsolve]
          exact .solved hboth hvalid hsolve

end Solve

/-! ## What is in the journal -/

/-- The record is of a side, or of what is read in it. -/
def OfSide : Record → Prop
  | .side _ _ => True
  | q => OfTerm q

theorem of_side_log {sign : Float} {ts : List Token} {r : SideReading} (h : ReadsSide sign ts r) :
    ∀ q ∈ r.log, OfSide q := by
  obtain ⟨rs, hlog, hrs⟩ := h.log_eq
  rw [hlog]
  refine List.forall_mem_cons.mpr ⟨trivial, fun q hq => ?_⟩
  have hterm := hrs q hq
  cases q with
  | side => trivial
  | _ => exact hterm

namespace Runs
variable {left right : List Token} {l r : SideReading} {result : Except Failure Solution}
  {log : List Record} {raw : Table} (h : Runs l r result log)
include h

/-- A run that the left side does not end notes all of the right side. -/
theorem by_left : (∃ e, l.failure? = some e ∧ log = l.log) ∨
    l.failure? = none ∧ ∃ late, log = l.log ++ r.log ++ late ∧ addedTerms late = [] := by
  cases h with
  | left he => exact .inl ⟨_, he, rfl⟩
  | right hleft => exact .inr ⟨hleft, [], (List.append_nil _).symm, rfl⟩
  | refused h => exact .inr ⟨h.left, [], (List.append_nil _).symm, rfl⟩
  | unsolved h => exact .inr ⟨h.left, _, rfl, rfl⟩
  | solved h => exact .inr ⟨h.left, _, rfl, rfl⟩

variable (hl : ReadsSide 1.0 left l) (hr : ReadsSide (-1.0) right r)
include hl

theorem first_record : log.head? = some (.side 1.0 left) := by
  obtain ⟨rs, hlog, -⟩ := hl.log_eq
  obtain ⟨e, -, rfl⟩ | ⟨-, late, rfl, -⟩ := h.by_left
  · rw [hlog, List.head?_cons]
  · rw [hlog, List.cons_append, List.cons_append, List.head?_cons]

theorem added_left {e : Failure} (he : l.failure? = some e) : addedTerms log = l.terms := by
  obtain ⟨-, -, rfl⟩ | ⟨hleft, -⟩ := h.by_left
  · exact hl.added
  · rw [hleft] at he
    cases he

include hr

theorem added_both (hleft : l.failure? = none) : addedTerms log = l.terms ++ r.terms := by
  obtain ⟨e, he, -⟩ | ⟨-, late, rfl, hlate⟩ := h.by_left
  · rw [hleft] at he
    cases he
  · rw [Grammar.added_terms_append, Grammar.added_terms_append, hl.added, hr.added, hlate,
      List.append_nil]

theorem right_mem_iff : (∃ us, .side (-1.0) us ∈ log) ↔ l.failure? = none := by
  obtain ⟨rs, hlog, hrs⟩ := hl.log_eq
  obtain ⟨qs, hlog', -⟩ := hr.log_eq
  obtain ⟨e, he, rfl⟩ | ⟨hleft, late, rfl, -⟩ := h.by_left
  · refine ⟨fun ⟨us, hmem⟩ => ?_, fun hleft => ?_⟩
    · rw [hlog] at hmem
      rcases List.mem_cons.mp hmem with hmem | hmem
      · cases hmem
      · cases hrs _ hmem
    · rw [hleft] at he
      cases he
  · refine ⟨fun _ => hleft, fun _ => ⟨right, List.mem_append_left _ (List.mem_append_right _ ?_)⟩⟩
    rw [hlog']
    exact List.mem_cons_self

/-- Behind the records of the sides stand at most the validated table and the solution. -/
theorem behind_sides : ∃ sides, (∀ q ∈ sides, OfSide q) ∧
    ((log = sides ∧ ∀ raw t, ReadsBoth l r raw → raw.validate ≠ .ok t) ∨
      ∃ raw t, ReadsBoth l r raw ∧ raw.validate = .ok t ∧ log = sides ++ .validated t :: t.solve.log) := by
  have hleft := of_side_log hl
  have hboth := List.forall_mem_append.mpr ⟨hleft, of_side_log hr⟩
  cases h with
  | left he =>
    refine ⟨_, hleft, .inl ⟨rfl, fun raw t hread _ => ?_⟩⟩
    rw [hread.left] at he
    cases he
  | right _ he =>
    refine ⟨_, hboth, .inl ⟨rfl, fun raw t hread _ => ?_⟩⟩
    rw [hread.right] at he
    cases he
  | refused h he =>
    refine ⟨_, hboth, .inl ⟨rfl, fun raw t hread hvalid => ?_⟩⟩
    rw [← hread.table, h.table, he] at hvalid
    cases hvalid
  | unsolved h hvalid he => exact ⟨_, hboth, .inr ⟨_, _, h, hvalid, by rw [solver_log_error he]⟩⟩
  | solved h hvalid hs => exact ⟨_, hboth, .inr ⟨_, _, h, hvalid, by rw [solver_log_ok hs]⟩⟩

/-- What is not of a side is in the journal of a run that validated a table, and only there. -/
theorem late_mem_iff {q : Record} (hq : ¬OfSide q) : q ∈ log ↔
    ∃ raw t, ReadsBoth l r raw ∧ raw.validate = .ok t ∧ (q = .validated t ∨ q ∈ t.solve.log) := by
  obtain ⟨sides, hsides, ⟨rfl, hnone⟩ | ⟨raw, t, hread, hvalid, rfl⟩⟩ := h.behind_sides hl hr
  · constructor
    · exact fun hmem => absurd (hsides q hmem) hq
    · rintro ⟨raw, t, hread, hvalid, -⟩
      exact absurd hvalid (hnone raw t hread)
  · rw [List.mem_append, List.mem_cons]
    constructor
    · rintro (hmem | hmem)
      · exact absurd (hsides q hmem) hq
      · exact ⟨raw, t, hread, hvalid, hmem⟩
    · rintro ⟨raw', t', hread', hvalid', hmem⟩
      rw [← hread'.table, hread.table, hvalid] at hvalid'
      cases hvalid'
      exact .inr hmem

theorem solved_last {a b c : Float} {outcome : Outcome} {roots : List Root}
    (hmem : .solved a b c outcome roots ∈ log) : log.getLast? = some (.solved a b c outcome roots) := by
  obtain ⟨sides, hsides, ⟨rfl, -⟩ | ⟨raw, t, -, -, rfl⟩⟩ := h.behind_sides hl hr
  · exact (hsides _ hmem).elim
  · rcases List.mem_append.mp hmem with hmem | hmem
    · exact (hsides _ hmem).elim
    obtain ⟨s, hs, hq⟩ := mem_solver_log.mp ((List.mem_cons.mp hmem).resolve_left nofun)
    rw [hq, solver_log_ok hs]
    simp

end Runs

/-! ## How far a run came -/

section Progress
variable {s : String} {ts left right : List Token} {raw t : Table}

theorem reads_both_iff {l r : SideReading} :
    (l.addTo {} >>= r.addTo).result = .ok raw ↔ ReadsBoth l r raw := by
  rw [Traced.result_bind, bind_eq_ok]
  constructor
  · rintro ⟨table, hl, hr⟩
    obtain ⟨hleft, rfl⟩ := SideReading.add_to_eq_ok hl
    obtain ⟨hright, rfl⟩ := SideReading.add_to_eq_ok hr
    exact ⟨hleft, hright, leaves_both l r⟩
  · intro h
    refine ⟨l.leaves {}, by rw [add_to_whole h.left], ?_⟩
    rw [add_to_whole h.right, ← leaves_both, h.table]

theorem table_ok_iff (hscan : Token.scanText s = .ok ts)
    (hsplit : Token.splitSides ts = .ok (left, right)) : (table s).result = .ok t ↔
      ∃ raw, ReadsBoth (SideReading.read 1.0 left) (SideReading.read (-1.0) right) raw ∧
        raw.validate = .ok t := by
  rw [table_eq_ok]
  constructor
  · rintro ⟨ts', raw, hscan', hraw, hvalid⟩
    rw [hscan] at hscan'
    cases hscan'
    rw [raw_table_eq hsplit, reads_both_iff] at hraw
    exact ⟨raw, hraw, hvalid⟩
  · rintro ⟨raw, hread, hvalid⟩
    rw [← reads_both_iff, ← raw_table_eq hsplit] at hread
    exact ⟨ts, raw, hscan, hread, hvalid⟩

end Progress

/-- How the journal of a text with two sides tells how far its run came. -/
structure Progress (s : String) (ts left right : List Token) : Prop where
  reads_left : ReadsSide 1.0 left (SideReading.read 1.0 left)
  reads_right : ReadsSide (-1.0) right (SideReading.read (-1.0) right)
  runs : Runs (SideReading.read 1.0 left) (SideReading.read (-1.0) right)
    ((solve s).result.map Prod.fst) (solve s).log
  first : (solve s).log.head? = some (.side 1.0 left)
  /-- The right side is noted, if the left one was read to its end. -/
  right_iff : (∃ us, .side (-1.0) us ∈ (solve s).log) ↔
    ∃ table, ((SideReading.read 1.0 left).addTo {}).result = .ok table
  validated_iff : ∀ t, .validated t ∈ (solve s).log ↔ (table s).result = .ok t
  solved_iff : ∀ a b c outcome roots, .solved a b c outcome roots ∈ (solve s).log ↔
    ∃ t solution, (table s).result = .ok t ∧ t.solve.result = .ok solution ∧
      Record.solved a b c outcome roots = .solved t.a t.b t.c solution.outcome solution.roots
  last : ∀ a b c outcome roots, .solved a b c outcome roots ∈ (solve s).log →
    (solve s).log.getLast? = some (.solved a b c outcome roots)
  /-- The terms in the records add up to the table of both sides, or to what a failing side left. -/
  added : ∀ raw, (rawTable ts).result = .ok raw → Table.ofList (addedTerms (solve s).log) = raw
  added_left : ∀ e, ((SideReading.read 1.0 left).addTo {}).result = .error e →
    Table.ofList (addedTerms (solve s).log) = (SideReading.read 1.0 left).leaves {}
  added_right : ∀ table e, ((SideReading.read 1.0 left).addTo {}).result = .ok table →
    ((SideReading.read (-1.0) right).addTo table).result = .error e →
    Table.ofList (addedTerms (solve s).log) = (SideReading.read (-1.0) right).leaves table

theorem progress_of_solve {s : String} {ts left right : List Token} (hscan : Token.scanText s = .ok ts)
    (hsplit : Token.splitSides ts = .ok (left, right)) : Progress s ts left right := by
  have hl := Grammar.reads_side 1.0 left
  have hr := Grammar.reads_side (-1.0) right
  have hruns := solve_runs hscan hsplit
  refine ⟨hl, hr, hruns, hruns.first_record hl, ?_, fun t => ?_, fun a b c outcome roots => ?_,
    fun a b c outcome roots => hruns.solved_last hl hr, fun raw hraw => ?_, fun e he => ?_,
    fun table e htable he => ?_⟩
  · rw [hruns.right_mem_iff hl hr]
    constructor
    · intro hleft
      exact ⟨_, by rw [add_to_whole hleft]⟩
    · rintro ⟨table, htable⟩
      exact (SideReading.add_to_eq_ok htable).1
  · rw [hruns.late_mem_iff hl hr id, table_ok_iff hscan hsplit]
    constructor
    · rintro ⟨raw, t', hread, hvalid, hmem | hmem⟩
      · cases hmem
        exact ⟨raw, hread, hvalid⟩
      · obtain ⟨_, -, hq⟩ := mem_solver_log.mp hmem
        cases hq
    · rintro ⟨raw, hread, hvalid⟩
      exact ⟨raw, t, hread, hvalid, .inl rfl⟩
  · rw [hruns.late_mem_iff hl hr id]
    simp only [table_ok_iff hscan hsplit]
    constructor
    · rintro ⟨raw, t, hread, hvalid, hmem | hmem⟩
      · cases hmem
      · obtain ⟨solution, hsolution, hq⟩ := mem_solver_log.mp hmem
        exact ⟨t, solution, ⟨raw, hread, hvalid⟩, hsolution, hq⟩
    · rintro ⟨t, solution, ⟨raw, hread, hvalid⟩, hsolution, hq⟩
      exact ⟨raw, t, hread, hvalid, .inr (mem_solver_log.mpr ⟨solution, hsolution, hq⟩)⟩
  · rw [raw_table_eq hsplit, reads_both_iff] at hraw
    rw [hruns.added_both hl hr hraw.left, hraw.table]
  · rw [hruns.added_left hl (SideReading.add_to_eq_error.mp he)]
    rfl
  · obtain ⟨hleft, rfl⟩ := SideReading.add_to_eq_ok htable
    rw [hruns.added_both hl hr hleft, leaves_both]

theorem side_message (sign : Float) (ts : List Token) : (Record.side sign ts).message =
    "membre (signe " ++ Number.plainText sign ++ ") : " ++ Token.listText ts := rfl

/-- `4 ^ 0.5 / 0`. -/
def rootOverZero : List Token :=
  [.number 4.0 "4", .caret, .number 0.5 "0.5", .divide, .number 0.0 "0"]

end Trinomial.Equation
