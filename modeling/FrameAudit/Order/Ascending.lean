/-! # Total orders and ascending lists

`TotalOrder` states the laws of a comparison. `ascending` and `ascendingSet` sort by insertion, with
and without repeated elements: `ascending` keeps every element and leaves equal ones in their given
order, `ascendingSet` keeps one of each. Both recurse on the list, so they can be evaluated in
proofs. What `ascendingSet` gives depends on nothing but which elements there are
(`ascendingSet_congr`), what `ascending` gives on nothing but how often each element is there
(`ascending_congr`). -/

namespace FrameAudit

open Std

variable {α : Type} [Ord α]

/-- The comparison is a total order, and no two different elements are equal in it. -/
structure TotalOrder (α : Type) [Ord α] : Prop where
  total (a b : α) : (compare a b).isLE ∨ (compare b a).isLE
  trans {a b c : α} : (compare a b).isLE → (compare b c).isLE → (compare a c).isLE
  antisymm {a b : α} : (compare a b).isLE → (compare b a).isLE → a = b
  eq_iff (a b : α) : compare a b = .eq ↔ a = b

theorem TotalOrder.of_trans [TransOrd α] [LawfulEqOrd α] : TotalOrder α where
  total a b := by
    cases h : compare a b with
    | lt | eq => exact .inl rfl
    | gt => exact .inr (Ordering.isLE_of_eq_lt (OrientedCmp.gt_iff_lt.1 h))
  trans := TransCmp.isLE_trans
  antisymm hab hba := LawfulEqOrd.eq_of_compare (OrientedCmp.isLE_antisymm hab hba)
  eq_iff _ _ := LawfulEqCmp.compare_eq_iff_eq

/-- Where only equal elements compare equal, the strict part decides. -/
theorem transOrd_of_lt_trans [LawfulEqOrd α]
    (hswap : ∀ a b : α, compare a b = (compare b a).swap)
    (htrans : ∀ a b c : α, compare a b = .lt → compare b c = .lt → compare a c = .lt) :
    TransOrd α where
  eq_swap := hswap _ _
  isLE_trans {a b c} hab hbc := by
    rcases Ordering.isLE_iff_eq_lt_or_eq_eq.1 hab with hab | hab
    · rcases Ordering.isLE_iff_eq_lt_or_eq_eq.1 hbc with hbc | hbc
      · exact Ordering.isLE_of_eq_lt (htrans a b c hab hbc)
      · obtain rfl := LawfulEqOrd.eq_of_compare hbc
        exact Ordering.isLE_of_eq_lt hab
    · obtain rfl := LawfulEqOrd.eq_of_compare hab
      exact hbc

/-! ## Sorting by insertion -/

/-- Puts `a` in front of the first element that is not below it. -/
def insertAscending (a : α) : List α → List α
  | [] => [a]
  | b :: rest => if (compare a b).isLE then a :: b :: rest else b :: insertAscending a rest

/-- The elements in ascending order, each as often as it was given. -/
def ascending (elements : List α) : List α := elements.foldr insertAscending []

/-- Adds `a` to a strictly ascending list, unless an equal element is there. -/
def insertDistinct (a : α) : List α → List α
  | [] => [a]
  | b :: rest =>
    match compare a b with
    | .lt => a :: b :: rest
    | .eq => b :: rest
    | .gt => b :: insertDistinct a rest

/-- The distinct elements in ascending order. -/
def ascendingSet (elements : List α) : List α := elements.foldr insertDistinct []

/-! ## Without repetition -/

variable [TransOrd α] [LawfulEqOrd α] {a b : α} {xs ys : List α}

omit [TransOrd α] in
theorem mem_insertDistinct : b ∈ insertDistinct a xs ↔ b = a ∨ b ∈ xs := by
  fun_induction insertDistinct a xs with
  | case1 => simp
  | case2 c rest => simp
  | case3 c rest h =>
    obtain rfl := LawfulEqOrd.eq_of_compare h
    simp
  | case4 c rest _ ih => simp [ih, or_left_comm]

theorem pairwise_insertDistinct (h : xs.Pairwise fun a b => compare a b = .lt) :
    (insertDistinct a xs).Pairwise fun a b => compare a b = .lt := by
  fun_induction insertDistinct a xs with
  | case1 => exact List.pairwise_singleton _ _
  | case2 c rest hlt =>
    refine List.pairwise_cons.2 ⟨fun d hd => ?_, h⟩
    rcases List.mem_cons.1 hd with rfl | hd
    · exact hlt
    · exact TransCmp.lt_trans hlt (List.rel_of_pairwise_cons h hd)
  | case3 c rest => exact h
  | case4 c rest hgt ih =>
    obtain ⟨hc, hrest⟩ := List.pairwise_cons.1 h
    refine List.pairwise_cons.2 ⟨fun d hd => ?_, ih hrest⟩
    rcases mem_insertDistinct.1 hd with rfl | hd
    · exact OrientedCmp.gt_iff_lt.1 hgt
    · exact hc d hd

omit [TransOrd α] in
@[simp]
theorem mem_ascendingSet : b ∈ ascendingSet xs ↔ b ∈ xs := by
  induction xs with
  | nil => rfl
  | cons a xs ih =>
    rw [ascendingSet, List.foldr_cons, mem_insertDistinct, List.mem_cons]
    exact or_congr_right ih

theorem pairwise_ascendingSet (xs : List α) :
    (ascendingSet xs).Pairwise fun a b => compare a b = .lt := by
  induction xs with
  | nil => exact .nil
  | cons a xs ih => exact pairwise_insertDistinct ih

/-- The elements of a strictly ascending list determine it. -/
theorem eq_of_pairwise_of_mem_iff (hx : xs.Pairwise fun a b => compare a b = .lt)
    (hy : ys.Pairwise fun a b => compare a b = .lt) (h : ∀ a, a ∈ xs ↔ a ∈ ys) : xs = ys := by
  have hnodup : ∀ {zs : List α}, zs.Pairwise (fun a b => compare a b = .lt) → zs.Nodup :=
    fun hz => hz.imp fun hlt heq => by simp [heq] at hlt
  have hperm : xs.Perm ys := (List.perm_ext_iff_of_nodup (hnodup hx) (hnodup hy)).2 h
  refine hperm.eq_of_pairwise (fun a b _ _ hab hba => ?_) hx hy
  exact absurd hba (OrientedCmp.not_lt_of_lt hab)

theorem ascendingSet_congr (h : ∀ a, a ∈ xs ↔ a ∈ ys) : ascendingSet xs = ascendingSet ys :=
  eq_of_pairwise_of_mem_iff (pairwise_ascendingSet xs) (pairwise_ascendingSet ys) (by simpa using h)

/-! ## With repetition -/

omit [TransOrd α] [LawfulEqOrd α] in
theorem perm_insertAscending (a : α) (xs : List α) : (insertAscending a xs).Perm (a :: xs) := by
  fun_induction insertAscending a xs with
  | case1 => rfl
  | case2 => rfl
  | case3 b rest _ ih => exact (ih.cons b).trans (.swap a b rest)

omit [LawfulEqOrd α] in
theorem pairwise_insertAscending (h : xs.Pairwise fun a b => (compare a b).isLE) :
    (insertAscending a xs).Pairwise fun a b => (compare a b).isLE := by
  fun_induction insertAscending a xs with
  | case1 => exact List.pairwise_singleton _ _
  | case2 b rest hle =>
    refine List.pairwise_cons.2 ⟨fun c hc => ?_, h⟩
    rcases List.mem_cons.1 hc with rfl | hc
    · exact hle
    · exact TransCmp.isLE_trans hle (List.rel_of_pairwise_cons h hc)
  | case3 b rest hle ih =>
    obtain ⟨hb, hrest⟩ := List.pairwise_cons.1 h
    have hba : (compare b a).isLE := by
      rw [Bool.not_eq_true, Ordering.isLE_eq_false, OrientedCmp.gt_iff_lt] at hle
      exact Ordering.isLE_of_eq_lt hle
    refine List.pairwise_cons.2 ⟨fun c hc => ?_, ih hrest⟩
    rcases List.mem_cons.1 ((perm_insertAscending a rest).mem_iff.1 hc) with rfl | hc
    · exact hba
    · exact hb c hc

omit [TransOrd α] [LawfulEqOrd α] in
theorem perm_ascending (xs : List α) : (ascending xs).Perm xs := by
  induction xs with
  | nil => rfl
  | cons a xs ih => exact (perm_insertAscending a (ascending xs)).trans (ih.cons a)

omit [LawfulEqOrd α] in
theorem pairwise_ascending (xs : List α) :
    (ascending xs).Pairwise fun a b => (compare a b).isLE := by
  induction xs with
  | nil => exact .nil
  | cons a xs ih => exact pairwise_insertAscending ih

/-- How often each element is there determines an ascending list. -/
theorem eq_ascending (h : xs.Perm ys) (hx : xs.Pairwise fun a b => (compare a b).isLE) :
    xs = ascending ys := by
  refine (h.trans (perm_ascending ys).symm).eq_of_pairwise ?_ hx (pairwise_ascending ys)
  intro a b _ _ hab hba
  exact LawfulEqOrd.eq_of_compare (OrientedCmp.isLE_antisymm hab hba)

theorem ascending_congr (h : xs.Perm ys) : ascending xs = ascending ys :=
  eq_ascending ((perm_ascending xs).trans h) (pairwise_ascending xs)

end FrameAudit
