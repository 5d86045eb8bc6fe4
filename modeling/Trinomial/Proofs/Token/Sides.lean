import Mathlib.Tactic.Common
import Trinomial.Journal
import Trinomial.Token.Scan

/-! # Scanning the sides of an equation

A token never reaches across `=`, so a text is scanned alike before `= 0` and after `0 =`; only the
positions that are counted in it move.
-/
set_option autoImplicit false

namespace Trinomial

/-- The failure for the same text, with `n` more characters before it. -/
def Failure.shift (n : Nat) : Failure → Failure
  | malformed (.misplaced c position) => malformed (.misplaced c (position + n))
  | e => e

namespace Token

/-! ## Numbers -/

theorem take_drop_stop {p : Char → Bool} {c : Char} (hc : p c = false) (cs rest : List Char) :
    (cs ++ c :: rest).takeWhile p = cs.takeWhile p ∧
      (cs ++ c :: rest).dropWhile p = cs.dropWhile p ++ c :: rest := by
  have hneg : ¬p c = true := Bool.eq_false_iff.mp hc
  induction cs with
  | nil => exact ⟨List.takeWhile_cons_of_neg hneg, List.dropWhile_cons_of_neg hneg⟩
  | cons d ds ih =>
    rw [List.cons_append]
    cases hd : p d with
    | true =>
      rw [List.takeWhile_cons_of_pos hd, List.dropWhile_cons_of_pos hd, List.takeWhile_cons_of_pos hd,
        List.dropWhile_cons_of_pos hd, ih.1]
      exact ⟨rfl, ih.2⟩
    | false =>
      have hd := Bool.eq_false_iff.mp hd
      rw [List.takeWhile_cons_of_neg hd, List.dropWhile_cons_of_neg hd, List.takeWhile_cons_of_neg hd,
        List.dropWhile_cons_of_neg hd]
      exact ⟨rfl, rfl⟩

theorem scan_number_point {cs after : List Char} (h : cs.dropWhile Char.isDigit = '.' :: after) :
    scanNumber cs = if (after.takeWhile Char.isDigit).isEmpty then
        .error (.malformed (.unfinishedNumber (String.ofList (cs.takeWhile Char.isDigit ++ ['.']))))
      else .ok (cs.takeWhile Char.isDigit ++ '.' :: after.takeWhile Char.isDigit,
        after.dropWhile Char.isDigit) := by
  rw [scanNumber, h]
  rfl

theorem scan_number_plain {cs : List Char} (h : ∀ after, cs.dropWhile Char.isDigit ≠ '.' :: after) :
    scanNumber cs = .ok (cs.takeWhile Char.isDigit, cs.dropWhile Char.isDigit) := by
  unfold scanNumber
  split
  · rename_i heq
    exact absurd heq (h _)
  · rfl

/-- A number and what follows it are what was there. -/
theorem scan_number_parts {cs spelling after : List Char} (h : scanNumber cs = .ok (spelling, after)) :
    spelling ++ after = cs := by
  by_cases hpoint : ∃ rest, cs.dropWhile Char.isDigit = '.' :: rest
  · obtain ⟨rest, hrest⟩ := hpoint
    rw [scan_number_point hrest] at h
    split_ifs at h
    cases h
    rw [List.append_assoc, List.cons_append, List.takeWhile_append_dropWhile, ← hrest,
      List.takeWhile_append_dropWhile]
  · rw [scan_number_plain fun rest hrest => hpoint ⟨rest, hrest⟩] at h
    cases h
    exact List.takeWhile_append_dropWhile

/-- A number that ends in its point is reported without a position. -/
theorem scan_number_error {cs : List Char} {e : Failure} (h : scanNumber cs = .error e) (n : Nat) :
    e.shift n = e := by
  by_cases hpoint : ∃ rest, cs.dropWhile Char.isDigit = '.' :: rest
  · obtain ⟨rest, hrest⟩ := hpoint
    rw [scan_number_point hrest] at h
    split_ifs at h
    cases h
    rfl
  · rw [scan_number_plain fun rest hrest => hpoint ⟨rest, hrest⟩] at h
    cases h

theorem scan_number_equals (cs rest : List Char) : scanNumber (cs ++ '=' :: rest) =
    (scanNumber cs).map fun p => (p.1, p.2 ++ '=' :: rest) := by
  obtain ⟨htake, hdrop⟩ := take_drop_stop (p := Char.isDigit) (c := '=') (by decide) cs rest
  by_cases hpoint : ∃ after, cs.dropWhile Char.isDigit = '.' :: after
  · obtain ⟨after, hafter⟩ := hpoint
    obtain ⟨htake', hdrop'⟩ := take_drop_stop (p := Char.isDigit) (c := '=') (by decide) after rest
    have hpoint' : (cs ++ '=' :: rest).dropWhile Char.isDigit = '.' :: (after ++ '=' :: rest) := by
      rw [hdrop, hafter, List.cons_append]
    rw [scan_number_point hafter, scan_number_point hpoint', htake, htake', hdrop']
    split_ifs <;> rfl
  · have hplain : ∀ after, (cs ++ '=' :: rest).dropWhile Char.isDigit ≠ '.' :: after := by
      intro after hafter
      rw [hdrop] at hafter
      cases hcs : cs.dropWhile Char.isDigit with
      | nil =>
        rw [hcs] at hafter
        exact absurd (List.cons.inj hafter).1 (by decide)
      | cons c ds =>
        rw [hcs] at hafter
        exact hpoint ⟨ds, by rw [hcs, (List.cons.inj hafter).1]⟩
    rw [scan_number_plain hplain, scan_number_plain fun after hafter => hpoint ⟨after, hafter⟩, htake,
      hdrop]
    rfl

/-! ## Lists of tokens -/

/-- What is before `=` is scanned by itself. -/
theorem scan_equals (position : Nat) (cs rest : List Char) : scan position (cs ++ '=' :: rest) =
    scan position cs >>= fun ts => (scan (position + cs.length) ('=' :: rest)).map (ts ++ ·) := by
  have hmap (f : List Token → List Token) (x : Except Failure (List Token))
      (g : List Token → Except Failure (List Token)) (g' : List Token → Except Failure (List Token))
      (h : ∀ ts, (g ts).map f = g' (f ts)) : (x >>= g).map f = x.map f >>= g' := by
    cases x with
    | error e => rfl
    | ok ts => exact h ts
  have hcons (t : Token) (ts : List Token) (x : Except Failure (List Token)) :
      (x.map (ts ++ ·)).map (t :: ·) = x.map (t :: ts ++ ·) := by
    cases x <;> rfl
  fun_induction scan position cs with
  | case1 position =>
    rw [List.nil_append, ok_bind]
    cases scan position ('=' :: rest) <;> rfl
  | case2 position c cs t h ih =>
    have hlength : position + 1 + cs.length = position + (c :: cs).length := by
      rw [List.length_cons]
      omega
    rw [List.cons_append, scan_symbol h, ih, hlength]
    exact hmap _ _ _ _ fun ts => hcons t ts _
  | case3 position c cs h hc e hn =>
    have hn' : scanNumber (c :: (cs ++ '=' :: rest)) = .error e := by
      rw [← List.cons_append, scan_number_equals, hn]
      rfl
    rw [List.cons_append, scan_unfinished h hc hn']
    rfl
  | case4 position c cs h hc spelling after hn hlt ih =>
    have hn' : scanNumber (c :: (cs ++ '=' :: rest)) = .ok (spelling, after ++ '=' :: rest) := by
      rw [← List.cons_append, scan_number_equals, hn]
      rfl
    have hlength : position + spelling.length + after.length = position + (c :: cs).length := by
      rw [← scan_number_parts hn, List.length_append, Nat.add_assoc]
    rw [List.cons_append, scan_number h hc hn', ih, hlength]
    exact hmap _ _ _ _ fun ts => hcons _ ts _
  | case5 position c cs h hc =>
    rw [List.cons_append, scan_misplaced h (Bool.eq_false_iff.mpr hc)]
    rfl

/-- Positions count from the start of the text. -/
theorem scan_shift (position n : Nat) (cs : List Char) :
    scan (position + n) cs = (scan position cs).mapError (Failure.shift n) := by
  have hcons (t : Token) (x : Except Failure (List Token)) :
      (x.mapError (Failure.shift n)).map (t :: ·) = (x.map (t :: ·)).mapError (Failure.shift n) := by
    cases x <;> rfl
  fun_induction scan position cs with
  | case1 position => exact scan.eq_1 _
  | case2 position c cs t h ih =>
    rw [scan_symbol h, Nat.add_right_comm, ih, hcons]
  | case3 position c cs h hc e hn =>
    rw [scan_unfinished h hc hn]
    exact congrArg Except.error (scan_number_error hn n).symm
  | case4 position c cs h hc spelling after hn hlt ih =>
    rw [scan_number h hc hn, Nat.add_right_comm, ih, hcons]
  | case5 position c cs h hc =>
    rw [scan_misplaced h (Bool.eq_false_iff.mpr hc)]
    rfl

theorem symbol_equals {c : Char} (h : ofSymbol? c = some .equals) : c = '=' := by
  unfold ofSymbol? at h
  split_ifs at h <;> first | assumption | cases h

/-- The token `=` comes from the character. -/
theorem equals_mem_of_scan {position : Nat} {cs : List Char} {ts : List Token}
    (h : scan position cs = .ok ts) (ht : .equals ∈ ts) : '=' ∈ cs := by
  fun_induction scan position cs generalizing ts with
  | case1 position =>
    cases h
    cases ht
  | case2 position c cs t hc ih =>
    obtain ⟨us, hus, rfl⟩ := map_eq_ok.mp h
    rcases List.mem_cons.mp ht with rfl | ht
    · rw [symbol_equals hc]
      exact List.mem_cons_self
    · exact List.mem_cons_of_mem c (ih hus ht)
  | case3 position c cs hs hc e hn => cases h
  | case4 position c cs hs hc spelling after hn hlt ih =>
    obtain ⟨us, hus, rfl⟩ := map_eq_ok.mp h
    rw [← scan_number_parts hn]
    rcases List.mem_cons.mp ht with ht | ht
    · cases ht
    · exact List.mem_append_right spelling (ih hus ht)
  | case5 position c cs hs hc => cases h

/-! ## Texts -/

/-- The right side of `= 0` and the left one of `0 =`. -/
def zero : Token := ofSpelling ['0']

theorem scan_zero_equals (position : Nat) (cs : List Char) : scan position ('0' :: '=' :: cs) =
    (scan (position + 2) cs).map ([zero, .equals] ++ ·) := by
  have hzero : ofSymbol? '0' = none := by decide
  have hequals : ofSymbol? '=' = some .equals := by decide
  have hnumber : scanNumber ('0' :: '=' :: cs) = .ok (['0'], '=' :: cs) := by
    rw [scanNumber, List.takeWhile_cons_of_pos (by decide), List.dropWhile_cons_of_pos (by decide),
      List.takeWhile_cons_of_neg (by decide), List.dropWhile_cons_of_neg (by decide)]
    rfl
  have hposition : position + ['0'].length + 1 = position + 2 := rfl
  rw [scan_number hzero (by decide) hnumber, scan_symbol hequals, hposition]
  cases scan (position + 2) cs <;> rfl

theorem scan_equals_zero (position : Nat) : scan position ['=', '0'] = .ok [.equals, zero] := by
  have hzero : ofSymbol? '0' = none := by decide
  have hequals : ofSymbol? '=' = some .equals := by decide
  have hnumber : scanNumber ['0'] = .ok (['0'], []) := by rfl
  rw [scan_symbol hequals, scan_number hzero (by decide) hnumber, scan.eq_1]
  rfl

variable (m : String)

theorem visible_before : visible (m ++ "= 0") = visible m ++ ['=', '0'] := by
  rw [visible, String.toList_append, List.filter_append]
  rfl

theorem visible_after : visible ("0 =" ++ m) = '0' :: '=' :: visible m := by
  rw [visible, String.toList_append, List.filter_append]
  rfl

theorem scan_text_before : scanText (m ++ "= 0") = (scanText m).map (· ++ [.equals, zero]) := by
  have hend : ['=', '0'].find? (fun c => !isAllowed c) = none := by decide
  rw [scanText, scanText, visible_before, List.find?_append, hend, Option.or_none]
  cases (visible m).find? fun c => !isAllowed c with
  | some c => rfl
  | none =>
    change scan 0 (visible m ++ '=' :: ['0']) = (scan 0 (visible m)).map _
    rw [scan_equals, scan_equals_zero]
    cases scan 0 (visible m) <;> rfl

theorem scan_text_after : scanText ("0 =" ++ m) =
    ((scanText m).mapError (Failure.shift 2)).map ([zero, .equals] ++ ·) := by
  have h0 : isAllowed '0' = true := by decide
  have h1 : isAllowed '=' = true := by decide
  have hfind : ('0' :: '=' :: visible m).find? (fun c => !isAllowed c) =
      (visible m).find? fun c => !isAllowed c := by
    rw [List.find?_cons_of_neg (by rw [h0]; decide), List.find?_cons_of_neg (by rw [h1]; decide)]
  rw [scanText, scanText, visible_after, hfind]
  cases (visible m).find? fun c => !isAllowed c with
  | some c => rfl
  | none =>
    change scan 0 ('0' :: '=' :: visible m) = ((scan 0 (visible m)).mapError _).map _
    rw [scan_zero_equals, scan_shift]

/-- A text without `=` has no token `=`. -/
theorem equals_not_mem {ts : List Token} (hm : '=' ∉ m.toList) (h : scanText m = .ok ts) :
    .equals ∉ ts := by
  rw [scanText] at h
  split at h
  · cases h
  · intro ht
    exact hm (List.mem_filter.mp (equals_mem_of_scan h ht)).1

end Token
end Trinomial
