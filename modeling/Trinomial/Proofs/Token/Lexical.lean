import Mathlib.Data.List.Basic
import Mathlib.Data.List.DropRight
import Mathlib.Tactic.IntervalCases
import Trinomial.Proofs.Token.Scanned

/-! # The lexical language

A text is made of tokens exactly if each of its runs of digits and points, taken as long as possible, is a
numeral. Otherwise some point is at fault, and the first such point is what is reported, unless there is a
character outside the alphabet.
-/
set_option autoImplicit false

namespace Trinomial.Token

/-! ## The alphabet -/

def alphabet : List Char :=
  ['0', '1', '2', '3', '4', '5', '6', '7', '8', '9', '.', '+', '-', '*', '/', '^', '=', 'X']

theorem digit_mem_alphabet {c : Char} (h : c.isDigit = true) : c ∈ alphabet := by
  obtain ⟨hle, hge⟩ := digit_bounds h
  rw [← Char.ofNat_toNat c]
  interval_cases c.toNat <;> decide

theorem is_allowed_iff {c : Char} : isAllowed c = true ↔ c ∈ alphabet := by
  constructor
  · rw [isAllowed, Bool.or_eq_true, Bool.or_eq_true, beq_iff_eq, Option.isSome_iff_exists]
    rintro ((hc | rfl) | ⟨t, hc⟩)
    · exact digit_mem_alphabet hc
    · decide
    · unfold ofSymbol? at hc
      split_ifs at hc
      all_goals
        subst c
        decide
  · have hall : alphabet.all isAllowed = true := by rfl
    exact List.all_eq_true.mp hall c

/-! ## Runs -/

/-- A digit or a point. -/
def isNumeric (c : Char) : Bool := c.isDigit || c == '.'

/-- What is between `before` and `after` are digits and points, and neither neighbour is one. -/
structure IsRun (before run after : List Char) : Prop where
  ne_nil : run ≠ []
  numeric : ∀ c ∈ run, isNumeric c = true
  left : ∀ c ∈ before.getLast?, isNumeric c = false
  right : ∀ c ∈ after.head?, isNumeric c = false

theorem numeric_iff {c : Char} : isNumeric c = true ↔ c.isDigit = true ∨ c = '.' := by
  rw [isNumeric, Bool.or_eq_true, beq_iff_eq]

theorem not_numeric_iff {c : Char} : isNumeric c = false ↔ c.isDigit = false ∧ c ≠ '.' := by
  rw [isNumeric, Bool.or_eq_false_iff, beq_eq_false_iff_ne]

/-- The same as `Numeral.span_append`, from the end. -/
theorem rspan_append {p : Char → Bool} {ds rest : List Char} (hd : ∀ c ∈ ds, p c = true)
    (hr : ∀ c ∈ rest.getLast?, p c = false) :
    (rest ++ ds).rtakeWhile p = ds ∧ (rest ++ ds).rdropWhile p = rest := by
  have hd' : ∀ c ∈ ds.reverse, p c = true := fun c hc => hd c (List.mem_reverse.mp hc)
  have hr' : ∀ c ∈ rest.reverse.head?, p c = false := by
    rw [List.head?_reverse]
    exact hr
  obtain ⟨htake, hdrop⟩ := Numeral.span_append rest.reverse hd' hr'
  rw [List.rtakeWhile, List.rdropWhile, List.reverse_append, htake, hdrop, List.reverse_reverse,
    List.reverse_reverse]
  exact ⟨rfl, rfl⟩

/-- The runs behind a character that is in no run. -/
theorem run_behind {c : Char} {cs before run after : List Char} (hc : isNumeric c = false)
    (h : c :: cs = before ++ run ++ after) (hrun : IsRun before run after) :
    ∃ before', cs = before' ++ run ++ after ∧ IsRun before' run after := by
  cases before with
  | nil =>
    obtain ⟨d, run', rfl⟩ := List.exists_cons_of_ne_nil hrun.ne_nil
    have hd := hrun.numeric d List.mem_cons_self
    cases h
    rw [hc] at hd
    cases hd
  | cons d before =>
    refine ⟨before, (List.cons.inj h).2, hrun.ne_nil, hrun.numeric, fun d hd => hrun.left d ?_, hrun.right⟩
    rw [List.getLast?_cons, Option.mem_def.mp hd]
    rfl

/-- A numeral that nothing continues is a run, and the other runs are behind it. -/
theorem run_behind_numeral {n : Numeral} {cs before run after : List Char} (hcs : Numeral.Ends cs)
    (h : n.chars ++ cs = before ++ run ++ after) (hrun : IsRun before run after) :
    n.chars = run ∨ ∃ before', cs = before' ++ run ++ after ∧ IsRun before' run after := by
  have hnumeric : ∀ c ∈ n.chars, isNumeric c = true := fun c hc => numeric_iff.mpr (n.chars_allowed hc)
  have hends : ∀ c ∈ cs.head?, isNumeric c = false := fun c hc => not_numeric_iff.mpr (hcs c hc)
  rw [List.append_assoc, List.append_eq_append_iff] at h
  rcases h with ⟨l, rfl, rfl⟩ | ⟨l, hchars, h⟩
  · refine .inr ⟨l, (List.append_assoc ..).symm, hrun.ne_nil, hrun.numeric, fun c hc => hrun.left c ?_,
      hrun.right⟩
    rw [List.getLast?_append, Option.mem_def.mp hc]
    rfl
  · have hl : ∀ c ∈ l, isNumeric c = true :=
      fun c hc => hnumeric c (hchars ▸ List.mem_append_right before hc)
    -- both are the numeric part in front of the same characters
    have hlrun : l = run := by
      rw [← (Numeral.span_append cs hl hends).1, ← h, (Numeral.span_append after hrun.numeric hrun.right).1]
    have hbefore : before = [] := by
      rw [← List.getLast?_eq_none_iff, Option.eq_none_iff_forall_not_mem]
      intro c hc
      have hfree := hrun.left c hc
      rw [hnumeric c (hchars ▸ List.mem_append_left l (List.mem_of_getLast? hc))] at hfree
      cases hfree
    rw [hchars, hlrun, hbefore]
    exact .inl rfl

/-- In the letters of printable tokens the runs are the numbers. -/
theorem run_of_letters {ts : List Token} (hts : Printable ts) {before run after : List Char}
    (h : letters ts = before ++ run ++ after) (hrun : IsRun before run after) :
    ∃ n : Numeral, n.chars = run := by
  induction ts generalizing before with
  | nil =>
    obtain ⟨hl, -⟩ := List.append_eq_nil_iff.mp h.symm
    exact absurd (List.append_eq_nil_iff.mp hl).2 hrun.ne_nil
  | cons t ts ih =>
    have hts' := printable_tail hts
    rw [letters_cons] at h
    cases hn : t.isNumber with
    | false =>
      obtain ⟨c, htext, hc⟩ := text_symbol hn
      rw [htext, List.singleton_append] at h
      obtain ⟨before', h', hrun'⟩ := run_behind (not_numeric_iff.mpr (symbol_ends hc)) h hrun
      exact ih hts' h' hrun'
    | true =>
      cases t with
      | number v s =>
        obtain ⟨n, hspelling⟩ := (hts.spelled _ List.mem_cons_self).exists_numeral
        have hends : Numeral.Ends (letters ts) := letters_ends fun u hu => hts.apart.rel_head? hu hn
        rw [hspelling, text_of_spelling] at h
        rcases run_behind_numeral hends h hrun with rfl | ⟨before', h', hrun'⟩
        · exact ⟨n, rfl⟩
        · exact ih hts' h' hrun'
      | _ => cases hn

/-! ## Points at fault -/

/-- The integer part of a point: the digits right before it, unless they follow a point themselves. -/
def ownWhole (before : List Char) : List Char :=
  if (before.rdropWhile Char.isDigit).getLast? = some '.' then [] else before.rtakeWhile Char.isDigit

/-- What is wrong with the point between `before` and `after`. -/
def fault? (before after : List Char) : Option Misspelling :=
  if ownWhole before = [] then some (.misplaced '.' before.length)
  else if after.head?.any Char.isDigit then none
  else some (.unfinishedNumber (String.ofList (ownWhole before ++ ['.'])))

def Faultless (cs : List Char) : Prop :=
  ∀ before after, cs = before ++ '.' :: after → fault? before after = none

/-- What is wrong with the first point that is at fault. -/
def FirstFault (cs : List Char) (m : Misspelling) : Prop :=
  ∃ before after, cs = before ++ '.' :: after ∧ fault? before after = some m ∧
    ∀ l r, cs = l ++ '.' :: r → l.length < before.length → fault? l r = none

theorem fault_eq_none {before after : List Char} :
    fault? before after = none ↔ ownWhole before ≠ [] ∧ after.head?.any Char.isDigit = true := by
  unfold fault?
  split_ifs with hwhole hafter
  · exact ⟨nofun, fun h => absurd hwhole h.1⟩
  · exact ⟨fun _ => ⟨hwhole, hafter⟩, fun _ => rfl⟩
  · exact ⟨nofun, fun h => absurd h.2 hafter⟩

theorem own_whole_append {l ds : List Char} (hd : ∀ c ∈ ds, c.isDigit = true)
    (hl : ∀ c ∈ l.getLast?, isNumeric c = false) : ownWhole (l ++ ds) = ds := by
  obtain ⟨htake, hdrop⟩ := rspan_append hd fun c hc => (not_numeric_iff.mp (hl c hc)).1
  rw [ownWhole, hdrop, htake, if_neg]
  exact fun h => (not_numeric_iff.mp (hl '.' h)).2 rfl

theorem own_whole_point {l ds : List Char} (hd : ∀ c ∈ ds, c.isDigit = true) :
    ownWhole (l ++ '.' :: ds) = [] := by
  have hlast : ∀ c ∈ (l ++ ['.']).getLast?, c.isDigit = false := by
    rw [List.getLast?_concat]
    rintro _ ⟨⟩
    rfl
  rw [List.append_cons, ownWhole, (rspan_append hd hlast).2, if_pos List.getLast?_concat]

theorem point_not_mem {ds : List Char} (hd : ∀ c ∈ ds, c.isDigit = true) : '.' ∉ ds :=
  fun h => absurd (hd '.' h) (by decide)

/-- A numeral has at most the point between its parts. -/
theorem numeral_point {n : Numeral} {l r : List Char} (h : n.chars = l ++ '.' :: r) :
    n.whole = l ∧ n.fraction = r ∧ r ≠ [] := by
  rw [Numeral.chars] at h
  split_ifs at h with hfraction
  · have hpoint : '.' ∈ n.whole := h ▸ List.mem_append_right l List.mem_cons_self
    exact absurd hpoint (point_not_mem n.whole_digits)
  · obtain ⟨hl, -, rfl⟩ := (List.append_cons_inj_of_notMem (point_not_mem n.whole_digits)
      (point_not_mem n.fraction_digits)).mp h
    exact ⟨hl, rfl, hfraction⟩

/-- Every point is in a run. -/
theorem exists_run_around (before after : List Char) : ∃ l left right r, before = l ++ left ∧
    after = right ++ r ∧ IsRun l (left ++ '.' :: right) r := by
  refine ⟨before.rdropWhile isNumeric, before.rtakeWhile isNumeric, after.takeWhile isNumeric,
    after.dropWhile isNumeric, List.rdropWhile_append_rtakeWhile.symm,
    List.takeWhile_append_dropWhile.symm, ?_⟩
  refine ⟨List.append_ne_nil_of_right_ne_nil _ (List.cons_ne_nil _ _), ?_, ?_,
    fun c hc => Numeral.head_drop_while hc⟩
  · intro c hc
    rcases List.mem_append.mp hc with hc | hc
    · exact List.mem_rtakeWhile_imp hc
    · rcases List.mem_cons.mp hc with rfl | hc
      · rfl
      · exact List.mem_takeWhile_imp hc
  · intro c hc
    rw [List.rdropWhile, List.getLast?_reverse] at hc
    exact Numeral.head_drop_while hc

/-- In a run that is a numeral the point is not at fault. -/
theorem faultless_of_runs {cs : List Char}
    (h : ∀ before run after, cs = before ++ run ++ after → IsRun before run after →
      ∃ n : Numeral, n.chars = run) : Faultless cs := by
  rintro before after rfl
  obtain ⟨l, left, right, r, rfl, rfl, hrun⟩ := exists_run_around before after
  have hparts : l ++ left ++ '.' :: (right ++ r) = l ++ (left ++ '.' :: right) ++ r := by
    rw [List.append_assoc, List.append_assoc, List.append_assoc, List.cons_append]
  obtain ⟨n, hn⟩ := h _ _ _ hparts hrun
  obtain ⟨hwhole, hfraction, hne⟩ := numeral_point hn
  rw [fault_eq_none, own_whole_append (hwhole ▸ n.whole_digits) hrun.left, ← hwhole]
  refine ⟨n.whole_ne_nil, ?_⟩
  obtain ⟨d, ds, rfl⟩ := List.exists_cons_of_ne_nil hne
  exact n.fraction_digits d (hfraction ▸ List.mem_cons_self)

theorem letters_faultless {ts : List Token} (h : Printable ts) : Faultless (letters ts) :=
  faultless_of_runs fun _ _ _ => run_of_letters h

theorem first_fault_unique {cs : List Char} {m m' : Misspelling} (h : FirstFault cs m)
    (h' : FirstFault cs m') : m = m' := by
  obtain ⟨l, r, hcs, hm, hfirst⟩ := h
  obtain ⟨l', r', hcs', hm', hfirst'⟩ := h'
  rcases Nat.lt_trichotomy l.length l'.length with hlt | heq | hgt
  · rw [hfirst' l r hcs hlt] at hm
    cases hm
  · obtain ⟨rfl, hr⟩ := List.append_inj (hcs.symm.trans hcs') heq
    cases hr
    exact Option.some.inj (hm.symm.trans hm')
  · rw [hfirst l' r' hcs' hgt] at hm'
    cases hm'

/-- Behind printable tokens the first fault is that of the next point. -/
theorem first_fault_letters {ts : List Token} {after : List Char} {m : Misspelling} (h : Printable ts)
    (hm : fault? (letters ts) after = some m) : FirstFault (letters ts ++ '.' :: after) m := by
  refine ⟨letters ts, after, rfl, hm, fun l r hcs hlt => ?_⟩
  -- an earlier point is in the tokens, and so is the digit that follows it
  rcases List.append_eq_append_iff.mp hcs with ⟨l', rfl, -⟩ | ⟨l', hletters, hr⟩
  · rw [List.length_append] at hlt
    omega
  · cases l' with
    | nil =>
      rw [hletters, List.append_nil] at hlt
      exact absurd hlt (Nat.lt_irrefl _)
    | cons c l' =>
      obtain ⟨rfl, rfl⟩ := List.cons.inj hr
      obtain ⟨hwhole, hdigit⟩ := fault_eq_none.mp (letters_faultless h l l' hletters)
      refine fault_eq_none.mpr ⟨hwhole, ?_⟩
      cases l' with
      | nil => cases hdigit
      | cons d l' => exact hdigit

/-! ## Scans that stop -/

/-- Scanning stops at a point behind these tokens: the point continues no number, or no digit follows it. -/
inductive StopsAt (position : ℕ) (after : List Char) : List Token → Misspelling → Prop where
  | misplaced {ts : List Token} (h : ∀ t ∈ ts.getLast?, t.isNumber = true → '.' ∈ t.text.toList) :
    StopsAt position after ts (.misplaced '.' (position + (letters ts).length))
  | unfinished {ts : List Token} {whole : List Char} (hwhole : whole ≠ [])
    (hdigits : ∀ c ∈ whole, c.isDigit = true) (hafter : ∀ c ∈ after.head?, c.isDigit = false) :
    StopsAt position after (ts ++ [ofSpelling whole]) (.unfinishedNumber (String.ofList (whole ++ ['.'])))

theorem letters_append (ts us : List Token) : letters (ts ++ us) = letters ts ++ letters us :=
  List.flatMap_append

theorem letters_concat (ts : List Token) (t : Token) : letters (ts ++ [t]) = letters ts ++ t.text.toList := by
  rw [letters_append]
  exact congrArg (letters ts ++ ·) (List.flatMap_singleton _ t)

theorem well_spelled_digits {whole : List Char} (hwhole : whole ≠ [])
    (hdigits : ∀ c ∈ whole, c.isDigit = true) : (ofSpelling whole).WellSpelled :=
  well_spelled_numeral ⟨whole, [], hwhole, hdigits, List.forall_mem_nil _⟩

theorem letters_last_symbol {ts : List Token} (h : ∀ t ∈ ts.getLast?, t.isNumber = false) :
    ∀ c ∈ (letters ts).getLast?, isNumeric c = false := by
  rcases List.eq_nil_or_concat ts with rfl | ⟨us, t, rfl⟩
  · nofun
  · rw [List.concat_eq_append] at h ⊢
    obtain ⟨c, htext, hc⟩ := text_symbol (h t List.getLast?_concat)
    rw [letters_concat, htext, List.getLast?_concat]
    rintro _ ⟨⟩
    exact not_numeric_iff.mpr (symbol_ends hc)

/-- A point right behind tokens continues none of them if a number at their end has a point already. -/
theorem own_whole_letters {ts : List Token} (hts : Printable ts)
    (h : ∀ t ∈ ts.getLast?, t.isNumber = true → '.' ∈ t.text.toList) : ownWhole (letters ts) = [] := by
  by_cases hsymbol : ∀ t ∈ ts.getLast?, t.isNumber = false
  · rw [← List.append_nil (letters ts),
      own_whole_append (List.forall_mem_nil _) (letters_last_symbol hsymbol)]
  · push Not at hsymbol
    obtain ⟨t, ht, hn⟩ := hsymbol
    rw [Bool.ne_false_iff] at hn
    have hpoint := h t ht hn
    obtain ⟨us, rfl⟩ := List.getLast?_eq_some_iff.mp ht
    cases t with
    | number v s =>
      obtain ⟨n, hspelling⟩ :=
        (hts.spelled (number v s) (List.mem_append_right us List.mem_cons_self)).exists_numeral
      rw [hspelling, text_of_spelling] at hpoint
      obtain ⟨l, r, hchars⟩ := List.append_of_mem hpoint
      obtain ⟨-, hfraction, -⟩ := numeral_point hchars
      rw [letters_concat, hspelling, text_of_spelling, hchars, ← List.append_assoc]
      exact own_whole_point (hfraction ▸ n.fraction_digits)
    | _ => cases hn

/-- Where scanning stops, the point is at fault. -/
theorem fault_of_stops {ts : List Token} {after : List Char} {m : Misspelling} (hts : Printable ts)
    (h : StopsAt 0 after ts m) : fault? (letters ts) after = some m := by
  cases h with
  | misplaced h => rw [fault?, if_pos (own_whole_letters hts h), Nat.zero_add]
  | @unfinished us whole hne hdigits hafter =>
    have hlast : ∀ t ∈ us.getLast?, t.isNumber = false := by
      intro t ht
      cases hn : t.isNumber with
      | false => rfl
      | true => exact absurd ((List.isChain_append.mp hts.apart).2.2 t ht _ rfl hn) Bool.noConfusion
    have hwhole : ownWhole (letters (us ++ [ofSpelling whole])) = whole := by
      rw [letters_concat, text_of_spelling]
      exact own_whole_append hdigits (letters_last_symbol hlast)
    have hnone : ¬after.head?.any Char.isDigit = true := by
      rw [Bool.not_eq_true, Option.any_eq_false]
      exact hafter
    rw [fault?, hwhole, if_neg hne, if_neg hnone]

theorem stops_cons {t : Token} {ts : List Token} {position : ℕ} {after : List Char} {m : Misspelling}
    (h : StopsAt (position + t.text.toList.length) after ts m)
    (ht : ts = [] → t.isNumber = true → '.' ∈ t.text.toList) : StopsAt position after (t :: ts) m := by
  cases h with
  | misplaced h =>
    have hlength : position + t.text.toList.length + (letters ts).length =
        position + (letters (t :: ts)).length := by
      rw [letters_cons, List.length_append, Nat.add_assoc]
    rw [hlength]
    refine .misplaced fun u hu => ?_
    cases ts with
    | nil =>
      cases hu
      exact ht rfl
    | cons v ts =>
      rw [List.getLast?_cons_cons] at hu
      exact h u hu
  | unfinished hwhole hdigits hafter =>
    rw [← List.cons_append]
    exact .unfinished hwhole hdigits hafter

/-- A number is unfinished if no digit follows its point. -/
theorem scan_number_stops {c : Char} {cs : List Char} {e : Failure} (hc : c.isDigit = true)
    (h : scanNumber (c :: cs) = .error e) : ∃ whole after, whole ≠ [] ∧
      (∀ d ∈ whole, d.isDigit = true) ∧ (∀ d ∈ after.head?, d.isDigit = false) ∧
      c :: cs = whole ++ '.' :: after ∧
      e = .malformed (.unfinishedNumber (String.ofList (whole ++ ['.']))) := by
  by_cases hpoint : ∃ after, (c :: cs).dropWhile Char.isDigit = '.' :: after
  · obtain ⟨after, hafter⟩ := hpoint
    rw [scan_number_point hafter] at h
    split_ifs at h with hempty
    cases h
    refine ⟨_, after, ?_, fun d hd => List.mem_takeWhile_imp hd, ?_, ?_, rfl⟩
    · rw [List.takeWhile_cons_of_pos hc]
      exact List.cons_ne_nil _ _
    · intro d hd
      obtain ⟨ds, rfl⟩ := List.head?_eq_some_iff.mp hd
      by_contra hdigit
      rw [List.takeWhile_cons_of_pos (Bool.of_not_eq_false hdigit)] at hempty
      cases hempty
    · rw [← hafter, List.takeWhile_append_dropWhile]
  · rw [scan_number_plain fun after hafter => hpoint ⟨after, hafter⟩] at h
    cases h

/-- A scan fails at a point, behind printable tokens. -/
theorem scan_error {position : ℕ} {cs : List Char} {e : Failure} (hcs : ∀ c ∈ cs, isAllowed c = true)
    (h : scan position cs = .error e) : ∃ ts after m, Printable ts ∧ cs = letters ts ++ '.' :: after ∧
      StopsAt position after ts m ∧ e = .malformed m := by
  fun_induction scan position cs with
  | case1 position => cases h
  | case2 position c cs t hc ih =>
    obtain ⟨hnumber, htext⟩ := symbol_text hc
    have hfree : ¬t.isNumber = true := Bool.eq_false_iff.mp hnumber
    obtain ⟨ts, after, m, hprintable, rfl, hstops, rfl⟩ :=
      ih (fun d hd => hcs d (List.mem_cons_of_mem c hd)) (map_eq_error.mp h)
    refine ⟨t :: ts, after, m, printable_cons (well_spelled_symbol hnumber) (absurd · hfree) hprintable, ?_,
      stops_cons ?_ fun _ => (absurd · hfree), rfl⟩
    · rw [letters_cons, htext, List.append_assoc, List.singleton_append]
    · rwa [htext]
  | case3 position c cs hs hc e' hn =>
    cases h
    obtain ⟨whole, after, hwhole, hdigits, hafter, hparts, rfl⟩ := scan_number_stops hc hn
    have hspelled := List.forall_mem_singleton.mpr (well_spelled_digits hwhole hdigits)
    have hstops : StopsAt position after ([] ++ [ofSpelling whole]) _ := .unfinished hwhole hdigits hafter
    refine ⟨[ofSpelling whole], after, _, ⟨hspelled, List.isChain_singleton _⟩, ?_, hstops, rfl⟩
    rw [hparts, letters_cons, text_of_spelling, letters, List.flatMap_nil, List.append_nil]
  | case4 position c cs hs hc spelling rest hn hlt ih =>
    obtain ⟨n, hspelling, hdigit, hends⟩ := Numeral.of_scan_number hc hn
    have hparts := scan_number_parts hn
    obtain ⟨ts, after, m, hprintable, rfl, hstops, rfl⟩ :=
      ih (fun d hd => hcs d (hparts ▸ List.mem_append_right spelling hd)) (map_eq_error.mp h)
    have hhead : ∀ u ∈ ts.head?, u.isNumber = false := by
      refine scan_head (scan_letters hprintable 0) fun d hd => hdigit d ?_
      rw [List.head?_append, Option.mem_def.mp hd]
      rfl
    refine ⟨ofSpelling spelling :: ts, after, m,
      printable_cons (hspelling ▸ well_spelled_numeral n) (fun _ => hhead) hprintable, ?_, stops_cons ?_ ?_, rfl⟩
    · rw [letters_cons, text_of_spelling, List.append_assoc, hparts]
    · rwa [text_of_spelling]
    · rintro rfl -
      rw [text_of_spelling, ← hspelling, Numeral.chars, if_neg fun hnil => (hends hnil '.' rfl).2 rfl]
      exact List.mem_append_right _ List.mem_cons_self
  | case5 position c cs hs hc =>
    cases h
    have hpoint : c = '.' := by
      have hallowed := hcs c List.mem_cons_self
      rw [isAllowed, hs, Bool.or_eq_true, Bool.or_eq_true, beq_iff_eq] at hallowed
      rcases hallowed with (hdigit | hpoint) | hsymbol
      · exact absurd hdigit hc
      · exact hpoint
      · cases hsymbol
    subst hpoint
    have hstops : StopsAt position cs [] (.misplaced '.' position) := .misplaced fun t ht => by cases ht
    exact ⟨[], cs, _, ⟨List.forall_mem_nil _, List.isChain_nil⟩, rfl, hstops, rfl⟩

/-! ## Texts -/

theorem scan_text_forbidden {s : String} {before after : List Char} {c : Char}
    (hs : visible s = before ++ c :: after) (hbefore : ∀ d ∈ before, d ∈ alphabet) (hc : c ∉ alphabet) :
    scanText s = .error (.malformed (.forbidden c)) := by
  have hfind : (visible s).find? (fun d => !isAllowed d) = some c := by
    rw [hs, List.find?_append, List.find?_eq_none.mpr, Option.none_or, List.find?_cons_of_pos]
    · rw [Bool.not_eq_true', Bool.eq_false_iff]
      exact fun h => hc (is_allowed_iff.mp h)
    · intro d hd
      rw [is_allowed_iff.mpr (hbefore d hd)]
      exact Bool.false_ne_true
  rw [scanText, hfind]

theorem scan_text_alphabet {s : String} (hs : ∀ c ∈ visible s, c ∈ alphabet) :
    scanText s = scan 0 (visible s) := by
  have hfind : (visible s).find? (fun c => !isAllowed c) = none := by
    rw [List.find?_eq_none]
    intro c hc
    rw [is_allowed_iff.mpr (hs c hc)]
    exact Bool.false_ne_true
  rw [scanText, hfind]

theorem first_fault_of_error {s : String} {e : Failure} (hs : ∀ c ∈ visible s, c ∈ alphabet)
    (h : scanText s = .error e) : ∃ m, e = .malformed m ∧ FirstFault (visible s) m := by
  rw [scan_text_alphabet hs] at h
  obtain ⟨ts, after, m, hts, hvisible, hstops, he⟩ := scan_error (fun c hc => is_allowed_iff.mpr (hs c hc)) h
  rw [hvisible]
  exact ⟨m, he, first_fault_letters hts (fault_of_stops hts hstops)⟩

theorem not_faultless {cs : List Char} {m : Misspelling} (h : FirstFault cs m) : ¬Faultless cs := by
  obtain ⟨before, after, hcs, hm, -⟩ := h
  intro hfaultless
  rw [hfaultless before after hcs] at hm
  cases hm

end Trinomial.Token
