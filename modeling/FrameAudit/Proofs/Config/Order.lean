import FrameAudit.Config.Basic
import FrameAudit.Order.Ascending
import Mathlib.Data.List.Basic

/-! # The order of policies and partitions is total

Policies are compared through any number of wrappers: what is inside comes first, and the generation
decides among wrappers of one policy. Tunings and partitions are compared field by field. -/

namespace FrameAudit

open Std

/-! ## Policies -/

namespace Policy

variable {p q r : Policy}

theorem cmp_eq_iff (p q : Policy) : p.cmp q = .eq ↔ p = q := by
  induction p generalizing q with
  | basic | sound => cases q <;> simp [cmp, rank]
  | fresh p m ih =>
    cases q with
    | fresh q n => simp [cmp, Ordering.then_eq_eq, ih]
    | _ => simp [cmp, rank]

theorem cmp_swap (p q : Policy) : p.cmp q = (q.cmp p).swap := by
  induction p generalizing q with
  | basic | sound => cases q <;> rfl
  | fresh p m ih =>
    cases q with
    | fresh q n => rw [cmp, cmp, Ordering.swap_then, ← ih q, ← OrientedOrd.eq_swap]
    | _ => rfl

/-- How a policy is below another one: by the rank of its constructor, by what is inside, or by the
generation alone. -/
inductive Below : Policy → Policy → Prop where
  | rank {p q : Policy} : p.rank < q.rank → Below p q
  | inner {p q : Policy} {m n : Nat} : Below p q → Below (.fresh p m) (.fresh q n)
  | generation {p : Policy} {m n : Nat} : m < n → Below (.fresh p m) (.fresh p n)

theorem cmp_eq_lt : p.cmp q = .lt ↔ Below p q := by
  constructor
  · intro h
    induction p generalizing q with
    | basic | sound => cases q <;> exact .rank (Nat.compare_eq_lt.1 h)
    | fresh p m ih =>
      cases q with
      | fresh q n =>
        rw [cmp, Ordering.then_eq_lt, Nat.compare_eq_lt, cmp_eq_iff] at h
        rcases h with h | ⟨rfl, h⟩
        · exact .inner (ih h)
        · exact .generation h
      | _ => exact .rank (Nat.compare_eq_lt.1 h)
  · intro h
    induction h with
    | @rank p q h =>
      cases p <;> cases q
      case fresh.fresh => exact absurd h (Nat.lt_irrefl _)
      all_goals exact Nat.compare_eq_lt.2 h
    | inner _ ih => rw [cmp, ih]; rfl
    | @generation p m n h => rw [cmp, (cmp_eq_iff p p).2 rfl, Nat.compare_eq_lt.2 h]; rfl

theorem Below.trans (hpq : Below p q) (hqr : Below q r) : Below p r := by
  induction hpq generalizing r with
  | rank h =>
    cases hqr with
    | rank h' => exact .rank (Nat.lt_trans h h')
    | inner _ | generation _ => exact .rank h
  | inner h ih =>
    cases hqr with
    | rank h' => exact .rank h'
    | inner h' => exact .inner (ih h')
    | generation _ => exact .inner h
  | generation h =>
    cases hqr with
    | rank h' => exact .rank h'
    | inner h' => exact .inner h'
    | generation h' => exact .generation (Nat.lt_trans h h')

instance : LawfulEqOrd Policy where
  compare_self := (cmp_eq_iff _ _).2 rfl
  eq_of_compare := (cmp_eq_iff _ _).1

instance : TransOrd Policy :=
  transOrd_of_lt_trans cmp_swap fun _ _ _ hpq hqr =>
    cmp_eq_lt.2 ((cmp_eq_lt.1 hpq).trans (cmp_eq_lt.1 hqr))

end Policy

/-! ## Tunings and partitions -/

namespace Tuning

instance : TransOrd Tuning :=
  inferInstanceAs (TransCmp (compareLex (compareOn aggressiveConstantPropagation)
    (compareOn unoptimizeThrowBlocks)))

theorem cmp_eq_iff {a b : Tuning} : a.cmp b = .eq ↔ a = b := by
  cases a; cases b
  simp [cmp, Ordering.then_eq_eq]

end Tuning

namespace Partition

instance : TransOrd Partition :=
  inferInstanceAs (TransCmp (compareLex (compareOn tuning) (compareOn policy)))

theorem cmp_eq_iff {a b : Partition} : a.cmp b = .eq ↔ a = b := by
  cases a; cases b
  simp [cmp, Ordering.then_eq_eq, Tuning.cmp_eq_iff, Policy.cmp_eq_iff]

instance : LawfulEqOrd Partition where
  compare_self := cmp_eq_iff.2 rfl
  eq_of_compare := cmp_eq_iff.1

end Partition

end FrameAudit
