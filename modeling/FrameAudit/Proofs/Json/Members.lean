import FrameAudit.Json.Basic
import Mathlib.Data.List.Induction

/-! # Members in order

`orderMembers` puts the members of an object into ascending order of their keys. It keeps one member
for each key, with the value that was given last (`mem_orderMembers`). -/

namespace FrameAudit

/-- The first pair with a key is the one that is looked up. -/
theorem lookup_cons_eq_ite {α β : Type} [BEq α] [LawfulBEq α] [DecidableEq α] (key k : α)
    (value : β) (entries : List (α × β)) :
    ((key, value) :: entries).lookup k = if k = key then some value else entries.lookup k := by
  rw [List.lookup_cons]
  split
  next h => rw [if_pos (beq_iff_eq.1 h)]
  next h => rw [if_neg (beq_eq_false_iff_ne.1 h)]

namespace Json

open Std

variable {α : Type} {key k : String} {value v : α} {members : List (String × α)}

/-- The value that a key was given last. -/
def value? (key : String) (members : List (String × α)) : Option α := members.reverse.lookup key

@[simp]
theorem value?_nil (key : String) : value? key ([] : List (String × α)) = none := rfl

theorem value?_concat (members : List (String × α)) (key k : String) (value : α) :
    value? k (members ++ [(key, value)]) = if k = key then some value else value? k members := by
  rw [value?, List.reverse_concat, lookup_cons_eq_ite, value?]

/-- The keys are in ascending order. -/
def Ordered (members : List (String × α)) : Prop := members.Pairwise (·.1 < ·.1)

theorem Ordered.value?_eq_some_iff (h : Ordered members) :
    value? k members = some v ↔ (k, v) ∈ members := by
  induction members using List.reverseRecOn with
  | nil => simp
  | append_singleton members m ih =>
    obtain ⟨key, value⟩ := m
    obtain ⟨hbefore, -, hlt⟩ := List.pairwise_append.1 h
    rw [value?_concat, List.mem_append, List.mem_singleton, Prod.mk.injEq]
    split
    next heq =>
      subst heq
      have hnew : (k, v) ∉ members := fun hmem =>
        String.lt_irrefl k (hlt _ hmem _ (List.mem_singleton_self _))
      simp [hnew, eq_comm]
    next hne =>
      rw [ih hbefore]
      simp [hne]

/-! ## Setting a member -/

private theorem lt_of_compare_lt {a b : String} (h : compare a b = .lt) : a < b :=
  compareOfLessAndEq_eq_lt.1 h

theorem mem_setMember (h : Ordered members) : (k, v) ∈ setMember key value members ↔
    k = key ∧ v = value ∨ k ≠ key ∧ (k, v) ∈ members := by
  -- where the member is put, all that follow have greater keys
  have hput : ∀ {rest : List (String × α)}, (∀ m ∈ rest, key < m.1) →
      ((k, v) ∈ (key, value) :: rest ↔ k = key ∧ v = value ∨ k ≠ key ∧ (k, v) ∈ rest) := by
    intro rest hrest
    rw [List.mem_cons, Prod.mk.injEq]
    refine or_congr_right ⟨fun hmem => ⟨?_, hmem⟩, And.right⟩
    rintro rfl
    exact String.lt_irrefl k (hrest _ hmem)
  fun_induction setMember key value members with
  | case1 => simp
  | case2 other old rest hlt =>
    have hlt : key < other := lt_of_compare_lt hlt
    refine hput fun m hm => ?_
    rcases List.mem_cons.1 hm with rfl | hm
    · exact hlt
    · exact String.lt_trans hlt (List.rel_of_pairwise_cons h hm)
  | case3 other old rest heq =>
    obtain rfl := LawfulEqOrd.eq_of_compare heq
    rw [hput fun m hm => List.rel_of_pairwise_cons h hm, List.mem_cons, Prod.mk.injEq]
    refine or_congr_right (and_congr_right fun hne => ?_)
    simp [hne]
  | case4 other old rest hgt ih =>
    have hgt : other < key := lt_of_compare_lt (OrientedCmp.gt_iff_lt.1 hgt)
    obtain ⟨-, hrest⟩ := List.pairwise_cons.1 h
    refine (List.mem_cons.trans (or_congr_right (ih hrest))).trans ?_
    rw [List.mem_cons, Prod.mk.injEq]
    constructor
    · rintro (⟨rfl, rfl⟩ | hmem | ⟨hne, hmem⟩)
      · exact .inr ⟨fun heq => String.lt_irrefl k (heq ▸ hgt), .inl ⟨rfl, rfl⟩⟩
      · exact .inl hmem
      · exact .inr ⟨hne, .inr hmem⟩
    · rintro (hmem | ⟨hne, hmem | hmem⟩)
      · exact .inr (.inl hmem)
      · exact .inl hmem
      · exact .inr (.inr ⟨hne, hmem⟩)

theorem ordered_setMember (h : Ordered members) : Ordered (setMember key value members) := by
  fun_induction setMember key value members with
  | case1 => exact List.pairwise_singleton _ _
  | case2 other old rest hlt =>
    have hlt : key < other := lt_of_compare_lt hlt
    refine List.pairwise_cons.2 ⟨fun m hm => ?_, h⟩
    rcases List.mem_cons.1 hm with rfl | hm
    · exact hlt
    · exact String.lt_trans hlt (List.rel_of_pairwise_cons h hm)
  | case3 other old rest heq =>
    obtain rfl := LawfulEqOrd.eq_of_compare heq
    exact List.pairwise_cons.2 (List.pairwise_cons.1 h)
  | case4 other old rest hgt ih =>
    have hgt : other < key := lt_of_compare_lt (OrientedCmp.gt_iff_lt.1 hgt)
    obtain ⟨hother, hrest⟩ := List.pairwise_cons.1 h
    refine List.pairwise_cons.2 ⟨fun m hm => ?_, ih hrest⟩
    rcases (mem_setMember hrest).1 hm with ⟨hkey, -⟩ | ⟨-, hm⟩
    · exact hkey ▸ hgt
    · exact hother m hm

/-! ## All members -/

theorem orderMembers_concat (members : List (String × α)) (key : String) (value : α) :
    orderMembers (members ++ [(key, value)]) = setMember key value (orderMembers members) :=
  List.foldl_append ..

theorem ordered_orderMembers (members : List (String × α)) : Ordered (orderMembers members) := by
  induction members using List.reverseRecOn with
  | nil => exact .nil
  | append_singleton members m ih =>
    rw [orderMembers_concat]
    exact ordered_setMember ih

theorem mem_orderMembers : (k, v) ∈ orderMembers members ↔ value? k members = some v := by
  induction members using List.reverseRecOn with
  | nil => simp [orderMembers]
  | append_singleton members m ih =>
    rw [orderMembers_concat, mem_setMember (ordered_orderMembers members), ih, value?_concat]
    split
    next h => simp [h, eq_comm]
    next h => simp [h]

theorem value?_orderMembers (k : String) (members : List (String × α)) :
    value? k (orderMembers members) = value? k members :=
  Option.ext fun v => by rw [(ordered_orderMembers members).value?_eq_some_iff, mem_orderMembers]

end Json

end FrameAudit
