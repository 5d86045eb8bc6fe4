import Mathlib.Data.List.TakeWhile
import Trinomial.Proofs.Solution.ZeroSigns
import Trinomial.Proofs.Token.Sides

/-! # Scanned tokens

What is scanned from a text is a list of printable tokens whose letters are the visible characters of the
text. So a list of tokens is scanned from some text exactly if it is scanned from its own one.
-/
set_option autoImplicit false

namespace Trinomial

/-! ## Scanned numbers -/

theorem Numeral.head_drop_while {p : Char → Bool} {cs : List Char} {d : Char}
    (h : d ∈ (cs.dropWhile p).head?) : p d = false := by
  rw [← List.find?_not_eq_head?_dropWhile] at h
  have hd := List.find?_some h
  rwa [Bool.not_eq_true'] at hd

/-- A scanned number is a numeral, and as long as it can be: no digit follows it, and a point only after
digits behind a point. -/
theorem Numeral.of_scan_number {c : Char} {cs spelling after : List Char} (hc : c.isDigit = true)
    (h : Token.scanNumber (c :: cs) = .ok (spelling, after)) :
    ∃ n : Numeral, n.chars = spelling ∧ (∀ d ∈ after.head?, d.isDigit = false) ∧
      (n.fraction = [] → Ends after) := by
  have hwhole : (c :: cs).takeWhile Char.isDigit ≠ [] := by
    rw [List.takeWhile_cons_of_pos hc]
    exact List.cons_ne_nil _ _
  have hdigits (l : List Char) (d : Char) (hd : d ∈ l.takeWhile Char.isDigit) : d.isDigit = true :=
    List.mem_takeWhile_imp hd
  by_cases hpoint : ∃ rest, (c :: cs).dropWhile Char.isDigit = '.' :: rest
  · obtain ⟨rest, hrest⟩ := hpoint
    rw [Token.scan_number_point hrest] at h
    split_ifs at h with hempty
    cases h
    rw [List.isEmpty_iff] at hempty
    refine ⟨⟨_, rest.takeWhile Char.isDigit, hwhole, hdigits _, hdigits _⟩, if_neg hempty, ?_, ?_⟩
    · exact fun d hd => head_drop_while hd
    · exact fun hnil => absurd hnil hempty
  · rw [Token.scan_number_plain fun rest hrest => hpoint ⟨rest, hrest⟩] at h
    cases h
    have hends : Ends ((c :: cs).dropWhile Char.isDigit) := by
      refine fun d hd => ⟨head_drop_while hd, ?_⟩
      rintro rfl
      obtain ⟨rest, hrest⟩ := List.head?_eq_some_iff.mp hd
      exact hpoint ⟨rest, hrest⟩
    exact ⟨⟨_, [], hwhole, hdigits _, List.forall_mem_nil _⟩, if_pos rfl, fun d hd => (hends d hd).1, fun _ => hends⟩

namespace Token

/-! ## Scanned tokens -/

theorem symbol_text {c : Char} {t : Token} (h : ofSymbol? c = some t) :
    t.isNumber = false ∧ t.text.toList = [c] := by
  unfold ofSymbol? at h
  split_ifs at h with hplus hminus htimes hdivide hcaret hequals hunknown
  all_goals
    cases h
    subst c
    exact ⟨rfl, rfl⟩

theorem well_spelled_symbol {t : Token} (h : t.isNumber = false) : t.WellSpelled := by
  cases t with
  | number => cases h
  | _ => trivial

/-- Only a digit begins a number. -/
theorem scan_head {position : ℕ} {cs : List Char} {ts : List Token} (h : scan position cs = .ok ts)
    (hcs : ∀ c ∈ cs.head?, c.isDigit = false) : ∀ t ∈ ts.head?, t.isNumber = false := by
  cases cs with
  | nil =>
    rw [scan.eq_1] at h
    cases h
    intro t ht
    cases ht
  | cons c cs =>
    cases hc : ofSymbol? c with
    | none =>
      rw [scan_misplaced hc (hcs c rfl)] at h
      cases h
    | some t =>
      rw [scan_symbol hc] at h
      obtain ⟨us, -, rfl⟩ := map_eq_ok.mp h
      rintro _ ⟨⟩
      exact (symbol_text hc).1

theorem letters_cons (t : Token) (ts : List Token) : letters (t :: ts) = t.text.toList ++ letters ts :=
  List.flatMap_cons

theorem printable_cons {t : Token} {ts : List Token} (ht : t.WellSpelled)
    (hts : t.isNumber = true → ∀ u ∈ ts.head?, u.isNumber = false) (h : Printable ts) :
    Printable (t :: ts) :=
  ⟨List.forall_mem_cons.mpr ⟨ht, h.spelled⟩,
    List.isChain_cons.mpr ⟨fun u hu hn => hts hn u hu, h.apart⟩⟩

/-- The tokens that are scanned have the scanned characters for letters. -/
theorem scan_printable {position : ℕ} {cs : List Char} {ts : List Token}
    (h : scan position cs = .ok ts) : Printable ts ∧ letters ts = cs := by
  fun_induction scan position cs generalizing ts with
  | case1 position =>
    cases h
    exact ⟨⟨List.forall_mem_nil _, List.isChain_nil⟩, rfl⟩
  | case2 position c cs t hc ih =>
    obtain ⟨us, hus, rfl⟩ := map_eq_ok.mp h
    obtain ⟨hprintable, hletters⟩ := ih hus
    obtain ⟨hnumber, htext⟩ := symbol_text hc
    have hfree : ¬t.isNumber = true := Bool.eq_false_iff.mp hnumber
    refine ⟨printable_cons (well_spelled_symbol hnumber) (absurd · hfree) hprintable, ?_⟩
    rw [letters_cons, htext, hletters, List.singleton_append]
  | case3 position c cs hs hc e hn => cases h
  | case4 position c cs hs hc spelling after hn hlt ih =>
    obtain ⟨us, hus, rfl⟩ := map_eq_ok.mp h
    obtain ⟨hprintable, hletters⟩ := ih hus
    obtain ⟨n, hspelling, hdigit, -⟩ := Numeral.of_scan_number hc hn
    refine ⟨printable_cons (hspelling ▸ well_spelled_numeral n) (fun _ => scan_head hus hdigit) hprintable, ?_⟩
    rw [letters_cons, text_of_spelling, hletters, scan_number_parts hn]
  | case5 position c cs hs hc => cases h

theorem scan_text_printable {s : String} {ts : List Token} (h : scanText s = .ok ts) :
    Printable ts ∧ letters ts = visible s := by
  rw [scanText] at h
  split at h
  · cases h
  · exact scan_printable h

/-! ## The text of tokens -/

theorem letters_not_blank {ts : List Token} (h : ∀ t ∈ ts, t.WellSpelled) {c : Char}
    (hc : c ∈ letters ts) : Text.isBlank c = false := by
  have hallowed := letters_allowed h hc
  rw [isAllowed, Bool.or_eq_true, Bool.or_eq_true, beq_iff_eq, Option.isSome_iff_exists] at hallowed
  obtain (hc | hc) | ⟨t, hc⟩ := hallowed
  · exact digit_not_blank (.inl hc)
  · exact digit_not_blank (.inr hc)
  · unfold ofSymbol? at hc
    split_ifs at hc
    all_goals
      subst c
      rfl

theorem visible_text {t : Token} (h : t.WellSpelled) : visible t.text = t.text.toList := by
  rw [visible, List.filter_eq_self]
  intro c hc
  have hletter : c ∈ letters [t] := by rwa [letters, List.flatMap_singleton]
  rw [letters_not_blank (List.forall_mem_singleton.mpr h) hletter]
  rfl

/-- The spaces between tokens do not count. -/
theorem visible_list_text {ts : List Token} (h : ∀ t ∈ ts, t.WellSpelled) :
    visible (listText ts) = letters ts := by
  induction ts with
  | nil => rfl
  | cons t ts ih =>
    obtain ⟨ht, hts⟩ := List.forall_mem_cons.mp h
    have ih := ih hts
    rw [letters_cons, ← ih, ← visible_text ht]
    cases ts with
    | nil =>
      rw [listText, List.map_singleton, String.intercalate_singleton]
      exact (List.append_nil _).symm
    | cons u us =>
      have hspace : visible " " = [] := by rfl
      rw [listText, List.map_cons, List.map_cons, String.intercalate_cons_cons, visible_append,
        visible_append, hspace, List.append_nil]
      rfl

/-- Printable tokens are scanned from their text, all scanned tokens are printable, and so the tokens in a
working are those that were solved. -/
theorem tokens_scanned_back :
    (∀ ts, Printable ts → scanText (listText ts) = .ok ts) ∧
    (∀ s ts, scanText s = .ok ts → Printable ts) ∧
    ∀ s solution w, (Equation.solve s).result = .ok (solution, w) →
      ∃ ts, scanText s = .ok ts ∧ scanText w.tokens = .ok ts := by
  have hback (ts : List Token) (h : Printable ts) : scanText (listText ts) = .ok ts :=
    scan_text_letters h (visible_list_text h.spelled)
  refine ⟨hback, fun s ts h => (scan_text_printable h).1, fun s solution w h => ?_⟩
  obtain ⟨ts, raw, t, hscan, -, -, -, rfl⟩ := Equation.solve_eq_ok.mp h
  exact ⟨ts, hscan, hback ts (scan_text_printable hscan).1⟩

def sampleTokens : List Token := [.number 12.5 "12.5", .equals, .unknown]

theorem tokens_scanned_back_sample : Printable sampleTokens ∧
    scanText (listText sampleTokens) = .ok sampleTokens ∧
    ∃ w ts, (Equation.solve Equation.sampleText).result = .ok (Equation.sampleSolution, w) ∧
      scanText Equation.sampleText = .ok ts ∧ scanText w.tokens = .ok ts := by
  have hscan : scanText "1 2 . 5\t=\nX" = .ok sampleTokens := by decide +kernel
  have hprintable := tokens_scanned_back.2.1 _ _ hscan
  obtain ⟨ts, raw, hts, hraw, hvalid⟩ := Equation.table_eq_ok.mp Equation.sample_table
  have hsolve := Equation.solve_eq_ok.mpr ⟨ts, raw, _, hts, hraw, hvalid, Equation.sample_solution, rfl⟩
  obtain ⟨us, hus, hback⟩ := tokens_scanned_back.2.2 _ _ _ hsolve
  exact ⟨hprintable, tokens_scanned_back.1 _ hprintable, _, us, hsolve, hus, hback⟩

end Token
end Trinomial
