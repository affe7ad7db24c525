import FrameAudit.Ty.Basic

/-! # The order of types

Types are ordered by the rank of their constructor and then by their parts, strings by code points
and lists lexicographically. Two types compare equal exactly when they are equal
(`Ty.cmp_eq_iff`), which is also how their equality is decided. -/

namespace FrameAudit

/-! ## Errors, data types and constants -/

namespace ErrorValue

def cmp (a b : ErrorValue) : Ordering :=
  (compare a.typeName b.typeName).then (compare a.message b.message)

instance : Ord ErrorValue := ⟨cmp⟩

theorem cmp_eq_iff {a b : ErrorValue} : cmp a b = .eq ↔ a = b := by
  cases a; cases b
  simp [cmp, Ordering.then_eq_eq]

end ErrorValue

namespace DataType

def cmp (a b : DataType) : Ordering := (compare a.name b.name).then (compare a.fields b.fields)

instance : Ord DataType := ⟨cmp⟩

theorem cmp_eq_iff {a b : DataType} : cmp a b = .eq ↔ a = b := by
  cases a; cases b
  simp [cmp, Ordering.then_eq_eq]

end DataType

namespace Constant

/-- The place of the constructor among the constants. -/
def rank : Constant → Nat
  | .nothing => 0
  | .bool _ => 1
  | .int _ => 2
  | .str _ => 3
  | .symbol _ => 4
  | .error _ => 5

def cmp : Constant → Constant → Ordering
  | .bool a, .bool b => compare a b
  | .int a, .int b => compare a b
  | .str a, .str b => compare a b
  | .symbol a, .symbol b => compare a b
  | .error a, .error b => a.cmp b
  | a, b => compare a.rank b.rank

instance : Ord Constant := ⟨cmp⟩

theorem cmp_eq_iff {a b : Constant} : cmp a b = .eq ↔ a = b := by
  cases a <;> cases b <;> simp [cmp, rank, ErrorValue.cmp_eq_iff]

end Constant

/-! ## Types -/

namespace Ty

/-- The place of the constructor among the types. -/
def rank : Ty → Nat
  | .bottom => 0
  | .any => 1
  | .bool => 2
  | .const _ => 3
  | .concrete _ => 4
  | .abstract _ _ => 5
  | .union _ => 6

mutual

def cmp : Ty → Ty → Ordering
  | .const a, .const b => a.cmp b
  | .concrete a, .concrete b => a.cmp b
  | .abstract a p, .abstract b q => (compare a b).then (compare p q)
  | .union as, .union bs => cmpList as bs
  | a, b => compare a.rank b.rank

def cmpList : List Ty → List Ty → Ordering
  | [], [] => .eq
  | [], _ :: _ => .lt
  | _ :: _, [] => .gt
  | a :: as, b :: bs => (cmp a b).then (cmpList as bs)

end

instance : Ord Ty := ⟨cmp⟩

mutual

theorem cmp_eq_iff (a b : Ty) : cmp a b = .eq ↔ a = b :=
  match a, b with
  | .union as, .union bs => by simp [cmp, cmpList_eq_iff as bs]
  | .const a, b => by cases b <;> simp [cmp, rank, Constant.cmp_eq_iff]
  | .concrete a, b => by cases b <;> simp [cmp, rank, DataType.cmp_eq_iff]
  | .abstract _ _, b => by cases b <;> simp [cmp, rank, Ordering.then_eq_eq]
  | .bottom, b => by cases b <;> simp [cmp, rank]
  | .any, b => by cases b <;> simp [cmp, rank]
  | .bool, b => by cases b <;> simp [cmp, rank]
  | .union as, .bottom => by simp [cmp, rank]
  | .union as, .any => by simp [cmp, rank]
  | .union as, .bool => by simp [cmp, rank]
  | .union as, .const _ => by simp [cmp, rank]
  | .union as, .concrete _ => by simp [cmp, rank]
  | .union as, .abstract _ _ => by simp [cmp, rank]

theorem cmpList_eq_iff (as bs : List Ty) : cmpList as bs = .eq ↔ as = bs :=
  match as, bs with
  | [], [] => by simp [cmpList]
  | [], _ :: _ => by simp [cmpList]
  | _ :: _, [] => by simp [cmpList]
  | a :: as, b :: bs => by simp [cmpList, Ordering.then_eq_eq, cmp_eq_iff a b, cmpList_eq_iff as bs]

end

instance : DecidableEq Ty := fun a b => decidable_of_iff (cmp a b = .eq) (cmp_eq_iff a b)

end Ty

end FrameAudit
