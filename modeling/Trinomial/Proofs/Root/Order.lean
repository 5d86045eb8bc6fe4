import Trinomial.Proofs.Number.Order
import Trinomial.Root

/-! # The order of roots

Roots are compared by a key: the kind, then the pattern of a real number, then the text of a complex one. So the
order is a total preorder, and sorting moves only roots that it tells apart. A sorted list has the real numbers
first, in ascending order, then the complex numbers by their texts, then the two answers that are no number.
-/
set_option autoImplicit false

namespace Trinomial.Root

/-! ## A total preorder -/

/-- What orders the real numbers; the other kinds have nothing to compare here. -/
def realKey : Root → ℤ
  | real x => Number.rank x
  | _ => 0

/-- What orders the complex numbers; the other kinds have nothing to compare here. -/
def complexKey : Root → String
  | complex z => z.text
  | _ => ""

theorem order_eq_lex :
    order = compareLex (compareOn kindRank) (compareLex (compareOn realKey) (compareOn complexKey)) := by
  funext r s
  cases r with
  | real x =>
    cases s with
    | real y => exact Ordering.then_eq.symm
    | _ => rfl
  | complex z => cases s <;> rfl
  | everything => cases s <;> rfl
  | nothing => cases s <;> rfl

instance : Std.TransCmp order := order_eq_lex ▸ inferInstance

theorem order_self (r : Root) : r.order r = .eq := Std.ReflCmp.compare_self

theorem order_swap (r s : Root) : r.order s = (s.order r).swap := Std.OrientedCmp.eq_swap

theorem order_trans {r s t : Root} (h : r.order s ≠ .gt) (h' : s.order t ≠ .gt) : r.order t ≠ .gt := by
  have hrs := Ordering.isLE_iff_ne_gt.mpr h
  have hst := Ordering.isLE_iff_ne_gt.mpr h'
  exact Ordering.isLE_iff_ne_gt.mp (Std.TransCmp.isLE_trans hrs hst)

/-- Kinds come before what a kind has to compare. -/
theorem kind_rank_le {r s : Root} (h : (r.order s).isLE) : r.kindRank ≤ s.kindRank := by
  rw [order_eq_lex, compareLex] at h
  exact compare_le_iff_le.mp (Ordering.isLE_iff_ne_gt.mp (Ordering.isLE_left_of_isLE_then h))

theorem text_le {z w : ComplexNumber} (h : ((complex z).order (complex w)).isLE) : z.text ≤ w.text :=
  compare_le_iff_le.mp (Ordering.isLE_iff_ne_gt.mp h)

/-! ## Sorted lists -/

section Lists
variable {rs : List Root}

theorem is_le_total (r s : Root) : ((r.order s).isLE || (s.order r).isLE) = true := by
  rw [order_swap s r]
  cases r.order s <;> rfl

theorem sort_perm (rs : List Root) : (sort rs).Perm rs := List.mergeSort_perm rs _

theorem sort_pairwise (rs : List Root) : (sort rs).Pairwise fun r s => (r.order s).isLE :=
  List.pairwise_mergeSort (fun _ _ _ => Std.TransCmp.isLE_trans) is_le_total rs

/-- The roots that the order does not tell apart from one of them. -/
theorem alike_pairwise (r : Root) (rs : List Root) :
    (rs.filter (r.order · == .eq)).Pairwise fun s t => (s.order t).isLE := by
  refine List.pairwise_of_forall_mem_list fun s hs t ht => ?_
  have hs : r.order s = .eq := by simpa using (List.mem_filter.mp hs).2
  have ht : r.order t = .eq := by simpa using (List.mem_filter.mp ht).2
  refine Std.TransCmp.isLE_trans (b := r) ?_ ?_
  · rw [order_swap s r, hs]
    rfl
  · rw [ht]
    rfl

/-- Roots that the order does not tell apart stay as they stood. -/
theorem sort_stable (r : Root) (rs : List Root) :
    (sort rs).filter (r.order · == .eq) = rs.filter (r.order · == .eq) := by
  have hsublist := List.sublist_mergeSort (fun _ _ _ => Std.TransCmp.isLE_trans) is_le_total
    (alike_pairwise r rs) List.filter_sublist
  have hfilter := hsublist.filter (r.order · == .eq)
  rw [List.filter_filter] at hfilter
  simp only [Bool.and_self] at hfilter
  exact (hfilter.eq_of_length ((sort_perm rs).filter _).length_eq.symm).symm

end Lists

/-! ## Roots by kind -/

/-- Real numbers, then complex numbers, then the answers that are no number. -/
def byKind (xs : List Float) (zs : List ComplexNumber) (m n : ℕ) : List Root :=
  xs.map real ++ zs.map complex ++ List.replicate m everything ++ List.replicate n nothing

/-- The list is ordered by kind, its real numbers ascend and its complex numbers follow their texts. -/
structure Ascending (rs : List Root) (xs : List Float) (zs : List ComplexNumber) (m n : ℕ) : Prop where
  eq_by_kind : rs = byKind xs zs m n
  patterns : xs.Pairwise fun x y => Number.totalOrder x y ≠ .gt
  numbers : xs.Pairwise fun x y => x.isNaN = false → y.isNaN = false → x ≤ y
  texts : zs.Pairwise fun z w => z.text ≤ w.text

section Kinds
variable {rs : List Root} {xs : List Float} {zs : List ComplexNumber} {m n : ℕ}

/-- Patterns in their order are numbers in theirs. -/
theorem ascending_of_eq (h : rs = byKind xs zs m n)
    (hxs : xs.Pairwise fun x y => Number.totalOrder x y ≠ .gt)
    (hzs : zs.Pairwise fun z w => z.text ≤ w.text) : Ascending rs xs zs m n where
  eq_by_kind := h
  patterns := hxs
  numbers := hxs.imp fun h hx hy => Number.le_of_rank_le hx hy (compare_le_iff_le.mp h)
  texts := hzs

theorem reals_eq_nil {k : ℕ} (h : ∀ r ∈ byKind xs zs m n, k ≤ r.kindRank) (hk : 0 < k) : xs = [] := by
  refine List.eq_nil_iff_forall_not_mem.mpr fun x hx => ?_
  have hle : k ≤ 0 := h (real x) (by simp [byKind, hx])
  omega

theorem complexes_eq_nil {k : ℕ} (h : ∀ r ∈ byKind xs zs m n, k ≤ r.kindRank) (hk : 1 < k) :
    zs = [] := by
  refine List.eq_nil_iff_forall_not_mem.mpr fun z hz => ?_
  have hle : k ≤ 1 := h (complex z) (by simp [byKind, hz])
  omega

theorem everything_eq_zero {k : ℕ} (h : ∀ r ∈ byKind xs zs m n, k ≤ r.kindRank) (hk : 2 < k) :
    m = 0 := by
  by_contra hm
  have hle : k ≤ 2 := h everything (by simp [byKind, hm])
  omega

theorem exists_ascending (h : rs.Pairwise fun r s => (r.order s).isLE) :
    ∃ xs zs m n, Ascending rs xs zs m n := by
  induction h with
  | nil => exact ⟨[], [], 0, 0, ascending_of_eq rfl .nil .nil⟩
  | @cons r rs hr h ih =>
    obtain ⟨xs, zs, m, n, rfl, hxs, -, hzs⟩ := ih
    have hkind : ∀ s ∈ byKind xs zs m n, r.kindRank ≤ s.kindRank := fun s hs => kind_rank_le (hr s hs)
    cases r with
    | real x =>
      refine ⟨x :: xs, zs, m, n, ascending_of_eq rfl (hxs.cons fun y hy => ?_) hzs⟩
      exact Ordering.isLE_iff_ne_gt.mp (hr (real y) (by simp [byKind, hy]))
    | complex z =>
      obtain rfl := reals_eq_nil hkind Nat.zero_lt_one
      refine ⟨[], z :: zs, m, n, ascending_of_eq rfl .nil (hzs.cons fun w hw => ?_)⟩
      exact text_le (hr (complex w) (by simp [byKind, hw]))
    | everything =>
      obtain rfl := reals_eq_nil hkind Nat.zero_lt_two
      obtain rfl := complexes_eq_nil hkind Nat.one_lt_two
      exact ⟨[], [], m + 1, n, ascending_of_eq rfl .nil .nil⟩
    | nothing =>
      obtain rfl := reals_eq_nil hkind (by decide)
      obtain rfl := complexes_eq_nil hkind (by decide)
      obtain rfl := everything_eq_zero hkind (by decide)
      exact ⟨[], [], 0, n + 1, ascending_of_eq rfl .nil .nil⟩

end Kinds

/-! ## Sorting -/

/-- One list is the other in the order of roots, where roots that the order does not tell apart stand as
they stood. -/
structure Sorts (rs ss : List Root) : Prop where
  perm : ss.Perm rs
  stable : ∀ r, ss.filter (order r · == .eq) = rs.filter (order r · == .eq)
  by_kind : ∃ xs zs m n, Ascending ss xs zs m n

/-- The order of roots is a total preorder, and lists are sorted by it. -/
theorem order_preorder_sorts :
    (∀ r, order r r = .eq) ∧ (∀ r s, order s r = (order r s).swap) ∧
      (∀ r s t, order r s ≠ .gt → order s t ≠ .gt → order r t ≠ .gt) ∧ ∀ rs, Sorts rs (sort rs) where
  left := order_self
  right.left r s := order_swap s r
  right.right.left _ _ _ h h' := order_trans h h'
  right.right.right rs :=
    ⟨sort_perm rs, fun r => sort_stable r rs, exists_ascending (sort_pairwise rs)⟩

end Trinomial.Root
