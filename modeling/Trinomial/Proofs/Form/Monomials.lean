import Trinomial.Proofs.Form.Canonical
import Trinomial.Proofs.Number.Displayed
import Trinomial.Proofs.Token.Scanned

/-! # Reduced forms as trees

The text of a reduced form is that of a side, monomial by monomial. A monomial has the value of its
coefficient, except that a coefficient which is not written is one.
-/
set_option autoImplicit false

namespace Trinomial

/-! ## Texts of tokens -/

namespace Token

/-- Without its blanks the text is that of the tokens, and it determines them. -/
structure Writes (text : String) (ts : List Token) : Prop where
  visible : Token.visible text = letters ts
  printable : Printable ts

variable {s s' : String} {ts us : List Token}

theorem Writes.append (h : Writes s ts) (h' : Writes s' us)
    (hapart : ∀ u ∈ us.head?, u.isNumber = false) : Writes (s ++ s') (ts ++ us) where
  visible := by rw [visible_append, h.visible, h'.visible, letters, letters, letters, List.flatMap_append]
  printable := by
    refine ⟨List.forall_mem_append.mpr ⟨h.printable.spelled, h'.printable.spelled⟩, ?_⟩
    refine List.isChain_append.mpr ⟨h.printable.apart, h'.printable.apart, ?_⟩
    exact fun _ _ u hu _ => hapart u hu

/-- A symbol in front, with any blanks around it. -/
theorem Writes.symbol (h : Writes s ts) (m : String) (t : Token)
    (hm : Token.visible m = t.text.toList) (ht : t.isNumber = false) : Writes (m ++ s) (t :: ts) where
  visible := by rw [visible_append, hm, h.visible, letters_cons]
  printable := printable_cons (well_spelled_symbol ht) (by rw [ht]; nofun) h.printable

theorem writes_numeral (n : Numeral) : Writes (String.ofList n.chars) [ofSpelling n.chars] where
  visible := by
    rw [visible_of_list fun c hc => digit_not_blank (n.chars_allowed hc), letters_cons, text_of_spelling]
    exact (List.append_nil _).symm
  printable := ⟨List.forall_mem_singleton.mpr (well_spelled_numeral n), List.isChain_singleton _⟩

theorem writes_empty : Writes "" [] := ⟨by decide, nofun, List.IsChain.nil⟩

end Token

/-! ## Numbers near one -/

namespace Number
variable {x : Float}

theorem near_neg_one (x : Float) : near tolerance (-x) 1.0 = near tolerance x (-1.0) := by
  have hblind : Blind Float.abs := by rfl
  have habs : (-1.0 - x).abs = (1.0 - -x).abs := by
    rw [hblind.neg_sub, float_abs_neg, float_sub_eq 1.0, float_neg_neg]
  rw [near, near, habs]

section Range
variable (hx : x.isFinite = true) (hlo : 1e-4 ≤ x) (hhi : x < 1e16)
include hx hlo hhi

/-- What is positive is far from minus one. -/
theorem not_near_neg_one : near tolerance x (-1.0) = false := by
  obtain ⟨hbottom, htop⟩ := value_bounds hx hlo hhi
  have hpos : 0 < value x := lt_of_lt_of_le (by positivity) hbottom
  have hrange : |-1 - value x| < rangeTop := by
    refine lt_range_top (k := 60) ?_ (by norm_num)
    rw [abs_of_neg (by linarith)]
    exact (by linarith : -(-1 - value x) < 10 ^ 16 + 1).trans (by norm_num)
  have hnearest := Denotes.sub denotes_one.neg ⟨hx, rfl⟩ hrange
  have hle : value (-1.0 - x) ≤ -1 := hnearest.le_of_le denotes_one.neg (by linarith)
  have hsmall : value tolerance < 1 := (Denotes.lt_iff ⟨by rfl, rfl⟩ denotes_one).mp (by decide)
  rw [near, decide_eq_false_iff_not]
  intro hlt
  rw [lt_iff_value (abs_finite hnearest.finite).1 (by rfl), value_abs, abs_of_neg (by linarith)] at hlt
  linarith

end Range

end Number

namespace Table
open Grammar Number

/-! ## Monomials -/

/-- What a shown coefficient is read back as. One is not written before the unknown, so what is near one or
minus one is read as that; the constant is always written. -/
def readBack (degree : ℕ) (v : Float) : Float :=
  if degree = 0 then v else if near tolerance v 1.0 then 1.0
  else if near tolerance v (-1.0) then -1.0 else v

theorem read_back_neg (degree : ℕ) {x : Float} (h : near tolerance x (-1.0) = false) :
    readBack degree (-x) = -readBack degree x := by
  have hneg : near tolerance (-x) (-1.0) = near tolerance x 1.0 := by
    rw [← near_neg_one, float_neg_neg]
  rw [readBack, readBack, near_neg_one, hneg, h]
  split_ifs <;> first | rfl | contradiction

/-- The degree of the reduced form's monomials. -/
def degreeOf : ℕ → Degree
  | 2 => .number 2.0
  | 1 => .number 1.0
  | _ => .number 0.0

def readTerm (p : ℕ × Float) : Term := ⟨readBack p.1 p.2, degreeOf p.1⟩

/-- `X^2`. -/
def squareTower : TowerTree := .power .unknown (.atom (.number none 2.0 "2"))

/-- A power of the unknown, after a numeral if one is written. -/
def monomialTree (n? : Option Numeral) (p : TowerTree) : TermTree :=
  match n? with
  | none => ⟨⟨p, []⟩, []⟩
  | some n => ⟨⟨.atom (numeralAtom none n), []⟩, [⟨p, []⟩]⟩

theorem monomial_tree_value (n? : Option Numeral) {p : TowerTree} {e : Float}
    (hp : p.operand = .ok (.unknownPower e)) (he : Degree.ofExponent (0.0 + e - 0.0) = .number e) :
    (monomialTree n? p).value =
      .ok ⟨(n?.map fun n => ofSpelling n.chars).getD 1.0, .number e⟩ := by
  have hpower : FactorTree.fraction ⟨p, []⟩ = .ok ⟨[.unknownPower e], []⟩ := by
    rw [FactorTree.fraction, hp]
    rfl
  cases n? with
  | none =>
    have hf : ((monomialTree none p).first :: (monomialTree none p).others).mapM FactorTree.fraction =
        .ok [⟨[.unknownPower e], []⟩] := by
      rw [monomialTree, List.mapM_cons, hpower]
      rfl
    rw [term_value_eq_reduce, hf]
    exact reduce_literal (float_one_mul 1.0).symm he
  | some n =>
    have hf : ((monomialTree (some n) p).first :: (monomialTree (some n) p).others).mapM
        FactorTree.fraction = .ok [⟨[.literal (ofSpelling n.chars)], []⟩, ⟨[.unknownPower e], []⟩] := by
      rw [monomialTree, List.mapM_cons, List.mapM_cons, hpower]
      rfl
    rw [term_value_eq_reduce, hf]
    exact reduce_literal rfl he

/-- The tree has the text, the value is that of the term, and its towers may be read. -/
structure Shows (text : String) (tree : TermTree) (t : Term) : Prop where
  writes : Token.Writes text tree.tokens
  value : tree.value = .ok t
  towers : ∀ u ∈ tree.towers, u.atoms.length ≤ towerLimit

section Positive
variable {x : Float} (hx : x.isFinite = true) (hlo : 1e-4 ≤ x) (hhi : x < 1e16)
include hx hlo hhi

theorem read_back_positive (degree : ℕ) :
    readBack degree x = if degree = 0 then x else if near tolerance x 1.0 then 1.0 else x := by
  rw [readBack, not_near_neg_one hx hlo hhi]
  rfl

/-- A factor before a power of the unknown: a numeral, or nothing for one. -/
theorem exists_factor {text : String} {p : TowerTree} {e : Float} {degree : ℕ} (hdegree : degree ≠ 0)
    (hwrites : Token.Writes text p.tokens) (hp : p.operand = .ok (.unknownPower e))
    (he : Degree.ofExponent (0.0 + e - 0.0) = .number e) (htower : p.atoms.length ≤ towerLimit) :
    ∃ tree, Shows (factorText x ++ text) tree ⟨readBack degree x, .number e⟩ := by
  obtain ⟨n, hchars, hvalue⟩ := display_numeral hx hlo hhi
  rw [read_back_positive hx hlo hhi, if_neg hdegree, factorText]
  split_ifs with hnear
  · refine ⟨monomialTree none p, ?_, monomial_tree_value none hp he, ?_⟩
    · rw [String.empty_append]
      simpa [monomialTree, TermTree.tokens, FactorTree.tokens, divisorTokens, factorTokens] using hwrites
    · simpa [monomialTree, TermTree.towers, FactorTree.towers] using htower
  · refine ⟨monomialTree (some n) p, ?_, ?_, ?_⟩
    · have htimes := hwrites.symbol " * " .times (by decide) rfl
      have htokens : (monomialTree (some n) p).tokens =
          [Token.ofSpelling n.chars] ++ .times :: p.tokens := by
        simp [monomialTree, TermTree.tokens, FactorTree.tokens, divisorTokens, factorTokens,
          TowerTree.tokens, numeralAtom, AtomTree.tokens, Token.ofSpelling]
      rw [hchars, String.append_assoc, htokens]
      exact (Token.writes_numeral n).append htimes (by rintro _ ⟨⟩; rfl)
    · rw [monomial_tree_value (some n) hp he, Option.map_some, Option.getD_some, hvalue]
    · have hatom : (1 : ℕ) ≤ towerLimit := by decide
      simpa [monomialTree, TermTree.towers, FactorTree.towers, TowerTree.atoms] using ⟨hatom, htower⟩

/-- A monomial with a positive coefficient. -/
theorem exists_monomial {degree : ℕ} (hdegree : degree = 2 ∨ degree = 1 ∨ degree = 0) :
    ∃ tree, Shows (shownText degree x) tree (readTerm (degree, x)) := by
  rcases hdegree with rfl | rfl | rfl
  · have htwo : Token.Writes "X^2" squareTower.tokens :=
      ((Token.writes_numeral (.digit '2' rfl)).symbol "^" .caret (by decide) rfl).symbol "X" .unknown
        (by decide) rfl
    exact exists_factor hx hlo hhi two_ne_zero htwo (e := 2.0) rfl (by decide) (by decide)
  · have hone : Token.Writes "X" (TowerTree.atom .unknown).tokens :=
      Token.writes_empty.symbol "X" .unknown (by decide) rfl
    exact exists_factor hx hlo hhi one_ne_zero hone (e := 1.0) rfl (by decide) (by decide)
  · obtain ⟨n, hchars, hvalue⟩ := display_numeral hx hlo hhi
    refine ⟨numeralTerm n, ?_, ?_, ?_⟩
    · change Token.Writes (displayText x) _
      rw [hchars]
      exact Token.writes_numeral n
    · rw [numeral_term_value, hvalue]
      rfl
    · have hatom : (1 : ℕ) ≤ towerLimit := by decide
      simpa [numeralTerm, TermTree.towers, FactorTree.towers, TowerTree.atoms] using hatom

end Positive

/-! ## Sides -/

section Next
variable {w : Float} {degree : ℕ} (hdegree : degree = 2 ∨ degree = 1 ∨ degree = 0) (hw : Positional w)
include hdegree hw

/-- A monomial after the first one, with its sign. -/
theorem exists_next : ∃ (s : Sign) (tree : TermTree) (t : Term),
    Token.Writes (nextText degree w) (s.token :: tree.tokens) ∧ tree.value = .ok t ∧
      t.scale (s.apply 1.0) = readTerm (degree, w) ∧ ∀ u ∈ tree.towers, u.atoms.length ≤ towerLimit := by
  rw [nextText]
  split_ifs with hneg
  · obtain ⟨hlo, hhi⟩ := hw.neg_range hneg
    have hfinite := hw.neg.finite
    obtain ⟨tree, hwrites, hvalue, htowers⟩ := exists_monomial hfinite hlo hhi hdegree
    refine ⟨.minus, tree, _, hwrites.symbol " - " .minus (by decide) rfl, hvalue, ?_, htowers⟩
    have hback := read_back_neg degree (not_near_neg_one hfinite hlo hhi)
    rw [float_neg_neg] at hback
    rw [Term.scale, readTerm, sign_apply_one, readTerm, hback]
    rfl
  · obtain ⟨hlo, hhi⟩ := hw.range hneg
    obtain ⟨tree, hwrites, hvalue, htowers⟩ := exists_monomial hw.finite hlo hhi hdegree
    refine ⟨.plus, tree, _, hwrites.symbol " + " .plus (by decide) rfl, hvalue, ?_, htowers⟩
    rw [Term.scale, readTerm, sign_apply_one]
    rfl

end Next

/-- Coefficients that a reduced form may show. -/
def Showable (ps : List (ℕ × Float)) : Prop :=
  ∀ p ∈ ps, (p.1 = 2 ∨ p.1 = 1 ∨ p.1 = 0) ∧ Positional p.2

theorem term_tokens_symbol {others : List (Sign × TermTree)} :
    ∀ u ∈ (termTokens others).head?, u.isNumber = false := by
  cases others with
  | nil => nofun
  | cons q others =>
    rintro _ ⟨⟩
    cases q.1 <;> rfl

/-- The terms after the first one, as the grammar derives them and with what they add up to. -/
theorem exists_others {ps : List (ℕ × Float)} (h : Showable ps) : ∃ others : List (Sign × TermTree),
    Token.Writes (String.join (ps.map fun p => nextText p.1 p.2)) (termTokens others) ∧
    (∀ table, (others.map fun p => (p.1.apply 1.0, p.2)).foldlM addSigned table =
      .ok (table.addAll (ps.map readTerm))) ∧
    ∀ u ∈ others.flatMap fun p => p.2.towers, u.atoms.length ≤ towerLimit := by
  induction ps with
  | nil => exact ⟨[], Token.writes_empty, fun _ => rfl, nofun⟩
  | cons p ps ih =>
    obtain ⟨⟨hdegree, hp⟩, hps⟩ := List.forall_mem_cons.mp h
    obtain ⟨s, tree, t, hwrites, hvalue, hterm, htowers⟩ := exists_next hdegree hp
    obtain ⟨others, hrest, hsum, hall⟩ := ih hps
    refine ⟨(s, tree) :: others, ?_, fun table => ?_, ?_⟩
    · rw [List.map_cons, String.join_cons]
      exact hwrites.append hrest term_tokens_symbol
    · rw [List.map_cons, List.foldlM_cons, addSigned, hvalue, map_ok, ok_bind, hterm, hsum]
      rfl
    · rw [List.flatMap_cons, List.forall_mem_append]
      exact ⟨htowers, hall⟩

/-- A side with a first coefficient that is not negative. -/
theorem exists_side {p : ℕ × Float} {ps : List (ℕ × Float)} (h : Showable (p :: ps))
    (hfirst : ¬p.2 < 0.0) : ∃ side : SideTree,
    Token.Writes (shownText p.1 p.2 ++ String.join (ps.map fun q => nextText q.1 q.2)) side.tokens ∧
    (side.signedTerms 1.0).foldlM addSigned {} = .ok (ofList ((p :: ps).map readTerm)) ∧
    ∀ u ∈ side.towers, u.atoms.length ≤ towerLimit := by
  obtain ⟨⟨hdegree, hp⟩, hps⟩ := List.forall_mem_cons.mp h
  obtain ⟨hlo, hhi⟩ := hp.range hfirst
  obtain ⟨tree, hwrites, hvalue, htowers⟩ := exists_monomial hp.finite hlo hhi hdegree
  obtain ⟨others, hrest, hsum, hall⟩ := exists_others hps
  refine ⟨⟨tree, others⟩, hwrites.append hrest term_tokens_symbol, ?_, ?_⟩
  · have hscale : (readTerm p).scale 1.0 = readTerm p := by rw [Term.scale, float_mul_one]
    rw [SideTree.signedTerms, List.foldlM_cons, addSigned, hvalue, map_ok, ok_bind, hscale, hsum]
    rfl
  · exact List.forall_mem_append.mpr ⟨htowers, hall⟩

end Table
end Trinomial
