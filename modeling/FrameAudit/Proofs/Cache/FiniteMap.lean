import FrameAudit.Cache
import FrameAudit.Proofs.Config.Order
import FrameAudit.Proofs.Json.Members
import FrameAudit.Proofs.Ty.Order
import Mathlib.Algebra.BigOperators.Group.Finset.Basic
import Mathlib.Data.List.Induction

/-! # The cache is a finite map over the order of its slots

A cache that is filled and cleared in any way keeps, for each slot, the call that was inserted last
since it was last cleared (`Cache.get?_ofChanges`), and has one entry for each slot that was
inserted since then (`Cache.toFinset_keys_ofChanges`). A search tree that compares slots by their
order, and never for equality, gives the same answers (`Cache.searched_tree`): the order is total,
and only equal slots are equal in it. -/

namespace FrameAudit.Cache

open Std

/-! ## Looking calls up -/

theorem isSome_lookup_iff (entries : List (Slot × CachedCall)) (slot : Slot) :
    (entries.lookup slot).isSome ↔ slot ∈ entries.map Prod.fst := by
  rw [List.lookup_isSome_iff, List.mem_map]
  refine exists_congr fun entry => and_congr_right fun _ => ?_
  rw [beq_iff_eq, eq_comm]

@[simp]
theorem get?_empty (slot : Slot) : ({} : Cache).get? slot = none := rfl

private theorem lookup_store (slot other : Slot) (call : CachedCall)
    (entries : List (Slot × CachedCall)) :
    (store slot call entries).lookup other =
      if other = slot then some call else entries.lookup other := by
  fun_induction store slot call entries with
  | case1 => exact lookup_cons_eq_ite slot other call []
  | case2 old rest =>
    rw [lookup_cons_eq_ite, lookup_cons_eq_ite]
    split <;> rfl
  | case3 key old rest hne ih =>
    rw [lookup_cons_eq_ite, lookup_cons_eq_ite, ih]
    by_cases h : other = slot
    · rw [if_neg (h ▸ hne), if_pos h, if_pos h]
    · rw [if_neg h, if_neg h]

/-- A call can be looked up where it was kept last, and nowhere else has anything changed. -/
theorem get?_insert (c : Cache) (slot other : Slot) (call : CachedCall) :
    (c.insert slot call).get? other = if other = slot then some call else c.get? other :=
  lookup_store slot other call c.entries

/-! ## The order of slots -/

namespace Slot

/-- Slots are ordered by partition and then by signature. -/
def cmp (a b : Slot) : Ordering := (a.partition.cmp b.partition).then (a.signature.cmp b.signature)

instance : Ord Slot := ⟨cmp⟩

instance : TransOrd Slot :=
  inferInstanceAs (TransCmp (compareLex (compareOn Slot.partition) (compareOn Slot.signature)))

theorem cmp_eq_iff {a b : Slot} : a.cmp b = .eq ↔ a = b := by
  cases a; cases b
  simp [cmp, Ordering.then_eq_eq, Partition.cmp_eq_iff, Signature.cmp_eq_iff]

instance : LawfulEqOrd Slot where
  compare_self := cmp_eq_iff.2 rfl
  eq_of_compare := cmp_eq_iff.1

end Slot

/-! ## Changes -/

/-- What is done to a cache. -/
inductive Change where
  | insert (slot : Slot) (call : CachedCall)
  | clear

def after (c : Cache) : Change → Cache
  | .insert slot call => c.insert slot call
  | .clear => {}

/-- The cache that changes make of an empty one. -/
def ofChanges (changes : List Change) : Cache := changes.foldl after {}

/-- The insertions in front of the first clearing. -/
def untilClear : List Change → List (Slot × CachedCall)
  | .insert slot call :: changes => (slot, call) :: untilClear changes
  | .clear :: _ | [] => []

/-- What was inserted since the cache was last cleared, the latest first. -/
def latest (changes : List Change) : List (Slot × CachedCall) := untilClear changes.reverse

/-- The slots that were inserted since the cache was last cleared. -/
def slots (changes : List Change) : Finset Slot := ((latest changes).map Prod.fst).toFinset

variable {c : Cache} {slot : Slot}

theorem latest_insert (changes : List Change) (slot : Slot) (call : CachedCall) :
    latest (changes ++ [.insert slot call]) = (slot, call) :: latest changes := by
  rw [latest, List.reverse_concat, untilClear, latest]

theorem latest_clear (changes : List Change) : latest (changes ++ [.clear]) = [] := by
  rw [latest, List.reverse_concat, untilClear]

theorem ofChanges_concat (changes : List Change) (change : Change) :
    ofChanges (changes ++ [change]) = (ofChanges changes).after change := by
  rw [ofChanges, List.foldl_append]
  rfl

/-! ## What is kept -/

theorem lookup_latest_insert (changes : List Change) (slot other : Slot) (call : CachedCall) :
    (latest (changes ++ [.insert slot call])).lookup other =
      if other = slot then some call else (latest changes).lookup other := by
  rw [latest_insert, lookup_cons_eq_ite]

theorem get?_ofChanges (changes : List Change) (slot : Slot) :
    (ofChanges changes).get? slot = (latest changes).lookup slot := by
  induction changes using List.reverseRecOn with
  | nil => rfl
  | append_singleton changes change ih =>
    rw [ofChanges_concat]
    cases change with
    | insert other call => rw [after, get?_insert, lookup_latest_insert, ih]
    | clear => rw [after, get?_empty, latest_clear, List.lookup_nil]

/-! ## How much is kept -/

/-- The slots with an entry, in the order of the entries. -/
def keys (c : Cache) : List Slot := c.entries.map Prod.fst

theorem map_fst_store (slot : Slot) (call : CachedCall) (entries : List (Slot × CachedCall)) :
    (store slot call entries).map Prod.fst =
      if slot ∈ entries.map Prod.fst then entries.map Prod.fst
      else entries.map Prod.fst ++ [slot] := by
  fun_induction store slot call entries with
  | case1 => simp
  | case2 old rest => simp
  | case3 other old rest hne ih =>
    simp only [List.map_cons, ih, List.mem_cons, or_iff_right hne]
    split <;> rfl

theorem keys_insert (c : Cache) (slot : Slot) (call : CachedCall) :
    (c.insert slot call).keys = if slot ∈ c.keys then c.keys else c.keys ++ [slot] :=
  map_fst_store slot call c.entries

theorem nodup_keys_ofChanges (changes : List Change) : (ofChanges changes).keys.Nodup := by
  induction changes using List.reverseRecOn with
  | nil => exact List.nodup_nil
  | append_singleton changes change ih =>
    rw [ofChanges_concat]
    cases change with
    | insert slot call =>
      rw [after, keys_insert]
      split
      next => exact ih
      next hnew =>
        rw [← List.concat_eq_append]
        exact ih.concat hnew
    | clear => exact List.nodup_nil

theorem mem_keys_iff : slot ∈ c.keys ↔ (c.get? slot).isSome :=
  (isSome_lookup_iff c.entries slot).symm

theorem toFinset_keys_ofChanges (changes : List Change) :
    (ofChanges changes).keys.toFinset = slots changes := by
  ext slot
  rw [List.mem_toFinset, mem_keys_iff, get?_ofChanges, isSome_lookup_iff, slots, List.mem_toFinset]

theorem length_keys (c : Cache) : c.keys.length = c.size := List.length_map ..

theorem size_ofChanges (changes : List Change) :
    (ofChanges changes).size = (slots changes).card := by
  rw [← toFinset_keys_ofChanges, List.toFinset_card_of_nodup (nodup_keys_ofChanges changes),
    length_keys]

theorem partitionSize_eq (c : Cache) (p : Partition) :
    c.partitionSize p = (c.keys.filter fun slot => slot.partition = p).length := by
  rw [keys, List.filter_map, List.length_map]
  rfl

theorem partitionSize_ofChanges (changes : List Change) (p : Partition) :
    (ofChanges changes).partitionSize p =
      ((slots changes).filter fun slot => slot.partition = p).card := by
  have hnodup := (nodup_keys_ofChanges changes).filter fun slot => slot.partition = p
  rw [partitionSize_eq, ← List.toFinset_card_of_nodup hnodup, List.toFinset_filter,
    toFinset_keys_ofChanges]
  simp only [decide_eq_true_eq]

/-- Each entry is in one partition. -/
theorem sum_partitionSize_ofChanges (changes : List Change) :
    ∑ p ∈ (slots changes).image Slot.partition, (ofChanges changes).partitionSize p =
      (ofChanges changes).size := by
  simp only [partitionSize_ofChanges, size_ofChanges]
  exact (Finset.card_eq_sum_card_image Slot.partition (slots changes)).symm

/-! ## The cache as a search tree -/

/-- The same change of a search tree, which finds slots by comparing them. -/
def afterInTree (t : TreeMap Slot CachedCall) : Change → TreeMap Slot CachedCall
  | .insert slot call => t.insert slot call
  | .clear => ∅

/-- The search tree that changes make of an empty one. -/
def tree (changes : List Change) : TreeMap Slot CachedCall := changes.foldl afterInTree ∅

/-- The cache answers like the search tree. -/
structure Searched (c : Cache) (t : TreeMap Slot CachedCall) : Prop where
  get? (slot : Slot) : c.get? slot = t[slot]?
  size : c.size = t.size
  partitionSize (p : Partition) :
    c.partitionSize p = (t.keys.filter fun slot => slot.partition = p).length

theorem tree_concat (changes : List Change) (change : Change) :
    tree (changes ++ [change]) = afterInTree (tree changes) change := by
  rw [tree, List.foldl_append]
  rfl

theorem getElem?_tree (changes : List Change) (slot : Slot) :
    (tree changes)[slot]? = (latest changes).lookup slot := by
  induction changes using List.reverseRecOn with
  | nil => exact TreeMap.getElem?_emptyc
  | append_singleton changes change ih =>
    rw [tree_concat]
    cases change with
    | insert other call =>
      have heq : compare other slot = .eq ↔ slot = other :=
        LawfulEqCmp.compare_eq_iff_eq.trans eq_comm
      simp only [afterInTree, TreeMap.getElem?_insert, lookup_latest_insert, ih, heq]
    | clear => rw [afterInTree, TreeMap.getElem?_emptyc, latest_clear, List.lookup_nil]

theorem keys_perm_tree (changes : List Change) :
    (ofChanges changes).keys.Perm (tree changes).keys := by
  refine (List.perm_ext_iff_of_nodup (nodup_keys_ofChanges changes) TreeMap.nodup_keys).2
    fun slot => ?_
  rw [mem_keys_iff, get?_ofChanges, TreeMap.mem_keys, TreeMap.mem_iff_isSome_getElem?,
    getElem?_tree]

theorem searched_tree (changes : List Change) : Searched (ofChanges changes) (tree changes) where
  get? slot := by rw [get?_ofChanges, getElem?_tree]
  size := by rw [← length_keys, (keys_perm_tree changes).length_eq, TreeMap.length_keys]
  partitionSize p := by
    rw [partitionSize_eq, ((keys_perm_tree changes).filter _).length_eq]

/-- Types, signatures, policies, partitions and slots are in total orders in which only equal ones
are equal. After any changes of an empty cache, a look-up gives the call that was inserted last
since the cache was last cleared, and nothing if there is none. There are as many entries as
different slots inserted since then, in each partition as many as such slots of it, and the
partitions add up. A search tree over the order of slots gives the same answers. -/
theorem finite_map_over_total_order :
    (TotalOrder Ty ∧ TotalOrder Signature ∧ TotalOrder Policy ∧ TotalOrder Partition ∧
      TotalOrder Slot) ∧
    ∀ changes : List Change,
      (∀ slot, (ofChanges changes).get? slot = (latest changes).lookup slot) ∧
      (ofChanges changes).size = (slots changes).card ∧
      (∀ p, (ofChanges changes).partitionSize p =
        ((slots changes).filter fun slot => slot.partition = p).card) ∧
      ∑ p ∈ (slots changes).image Slot.partition, (ofChanges changes).partitionSize p =
        (ofChanges changes).size ∧
      Searched (ofChanges changes) (tree changes) :=
  ⟨⟨.of_trans, .of_trans, .of_trans, .of_trans, .of_trans⟩, fun changes =>
    ⟨get?_ofChanges changes, size_ofChanges changes, partitionSize_ofChanges changes,
      sum_partitionSize_ofChanges changes, searched_tree changes⟩⟩

example :
    let slot (policy : Policy) (callee : String) : Slot := ⟨⟨{}, policy⟩, ⟨callee, []⟩⟩
    let c := ofChanges [.insert (slot .basic "f") ⟨.any, []⟩, .clear,
      .insert (slot .basic "f") ⟨.bool, []⟩, .insert (slot (.fresh .basic 0) "f") ⟨.any, []⟩,
      .insert (slot .basic "f") ⟨.bottom, []⟩]
    c.get? (slot .basic "f") = some ⟨.bottom, []⟩ ∧ c.get? (slot (.fresh .basic 1) "f") = none ∧
      c.size = 2 ∧ c.partitionSize ⟨{}, .basic⟩ = 1 := by
  decide

end FrameAudit.Cache
