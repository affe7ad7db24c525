import FrameAudit.CallPath
import FrameAudit.Order.Ascending
import Mathlib.Data.List.Basic

/-! # The order of types is total

The comparisons of errors, data types, constants, types and signatures are total orders: swapping
the sides swaps the answer, and what is below is below everything above. That two types compare
equal exactly when they are equal is `Ty.cmp_eq_iff`. -/

namespace FrameAudit

open Std

instance : TransOrd ErrorValue :=
  inferInstanceAs (TransCmp (compareLex (compareOn ErrorValue.typeName)
    (compareOn ErrorValue.message)))

instance : TransOrd DataType :=
  inferInstanceAs (TransCmp (compareLex (compareOn DataType.name) (compareOn DataType.fields)))

/-! ## Constants

A constant is compared part by part, after the rank of its constructor. A part that it does not have
is filled in; constants of one rank have the same parts, so that does not matter. -/

namespace Constant

def boolPart : Constant → Bool
  | .bool b => b
  | _ => false

def intPart : Constant → Int64
  | .int n => n
  | _ => 0

def textPart : Constant → String
  | .str s | .symbol s => s
  | _ => ""

def errorPart : Constant → ErrorValue
  | .error e => e
  | _ => ⟨"", ""⟩

theorem cmp_eq_compareLex : Constant.cmp =
    compareLex (compareOn rank) (compareLex (compareOn boolPart) (compareLex (compareOn intPart)
      (compareLex (compareOn textPart) (compareOn errorPart)))) := by
  funext a b
  cases a <;> cases b
  case bool.bool | int.int | str.str | symbol.symbol =>
    simp [cmp, compareLex, compareOn, rank, boolPart, intPart, textPart, errorPart]
  -- constants of different ranks, and those whose part comes last
  all_goals rfl

instance : TransOrd Constant := by
  change TransCmp Constant.cmp
  rw [cmp_eq_compareLex]
  infer_instance

end Constant

/-! ## Types -/

namespace Ty

mutual

theorem cmp_swap (a b : Ty) : cmp a b = (cmp b a).swap :=
  match a, b with
  | .union as, .union bs => by
    rw [cmp, cmp]
    exact cmpList_swap as bs
  | .const a, b => by
    cases b with
    | const b => exact OrientedOrd.eq_swap (a := a) (b := b)
    | _ => rfl
  | .concrete a, b => by
    cases b with
    | concrete b => exact OrientedOrd.eq_swap (a := a) (b := b)
    | _ => rfl
  | .abstract a p, b => by
    cases b with
    | abstract b q =>
      rw [cmp, cmp, Ordering.swap_then, ← OrientedOrd.eq_swap, ← OrientedOrd.eq_swap]
    | _ => rfl
  | .bottom, b => by cases b <;> rfl
  | .any, b => by cases b <;> rfl
  | .bool, b => by cases b <;> rfl
  | .union _, .bottom | .union _, .any | .union _, .bool | .union _, .const _
  | .union _, .concrete _ | .union _, .abstract _ _ => rfl

theorem cmpList_swap (as bs : List Ty) : cmpList as bs = (cmpList bs as).swap :=
  match as, bs with
  | [], [] | [], _ :: _ | _ :: _, [] => rfl
  | a :: as, b :: bs => by
    rw [cmpList, cmpList, Ordering.swap_then, ← cmp_swap a b, ← cmpList_swap as bs]

end

/-- How a type is below another one: by the rank of its constructor, or by its parts. -/
inductive Below : Ty → Ty → Prop where
  | rank {a b : Ty} : a.rank < b.rank → Below a b
  | const {a b : Constant} : compare a b = .lt → Below (.const a) (.const b)
  | concrete {a b : DataType} : compare a b = .lt → Below (.concrete a) (.concrete b)
  | abstract {a b : String} {p q : Bool} :
    compareLex (compareOn Prod.fst) (compareOn Prod.snd) (a, p) (b, q) = .lt →
    Below (.abstract a p) (.abstract b q)
  | union {as bs : List Ty} : cmpList as bs = .lt → Below (.union as) (.union bs)

theorem cmp_eq_lt {a b : Ty} : cmp a b = .lt ↔ Below a b := by
  constructor
  · intro h
    cases a <;> cases b
    case const.const => exact .const h
    case concrete.concrete => exact .concrete h
    case abstract.abstract => exact .abstract h
    case union.union as bs => exact .union (by rwa [cmp] at h)
    all_goals exact .rank (Nat.compare_eq_lt.1 h)
  · intro h
    cases h with
    | const h | concrete h | abstract h => exact h
    | union h => rwa [cmp]
    | rank h =>
      cases a <;> cases b
      case const.const | concrete.concrete | abstract.abstract | union.union =>
        exact absurd h (Nat.lt_irrefl _)
      all_goals exact Nat.compare_eq_lt.2 h

mutual

theorem below_trans (a b c : Ty) (h : Below a b) (h' : Below b c) : Below a c :=
  match a, b, c, h, h' with
  | .union as, .union bs, .union cs, .union h, .union h' =>
    .union (cmpList_lt_trans as bs cs h h')
  | _, _, _, .const h, .const h' => .const (TransCmp.lt_trans h h')
  | _, _, _, .concrete h, .concrete h' => .concrete (TransCmp.lt_trans h h')
  | _, _, _, .abstract h, .abstract h' => .abstract (TransCmp.lt_trans h h')
  | _, _, _, .rank h, .rank h' => .rank (Nat.lt_trans h h')
  | _, _, _, .rank h, .const _ | _, _, _, .rank h, .concrete _ | _, _, _, .rank h, .abstract _
  | _, _, _, .rank h, .union _ => .rank h
  | _, _, _, .const _, .rank h' | _, _, _, .concrete _, .rank h' | _, _, _, .abstract _, .rank h'
  | _, _, _, .union _, .rank h' => .rank h'

theorem cmpList_lt_trans (as bs cs : List Ty) (h : cmpList as bs = .lt)
    (h' : cmpList bs cs = .lt) : cmpList as cs = .lt :=
  match as, bs, cs with
  | [], _ :: _, _ :: _ => rfl
  | a :: as, b :: bs, c :: cs => by
    rw [cmpList, Ordering.then_eq_lt, cmp_eq_lt] at *
    rcases h with h | ⟨h, hs⟩ <;> rcases h' with h' | ⟨h', hs'⟩
    · exact .inl (below_trans a b c h h')
    · obtain rfl := (cmp_eq_iff b c).1 h'
      exact .inl h
    · obtain rfl := (cmp_eq_iff a b).1 h
      exact .inl h'
    · obtain rfl := (cmp_eq_iff a b).1 h
      exact .inr ⟨h', cmpList_lt_trans as bs cs hs hs'⟩

end

instance : LawfulEqOrd Ty where
  compare_self := (cmp_eq_iff _ _).2 rfl
  eq_of_compare := (cmp_eq_iff _ _).1

instance : TransOrd Ty :=
  transOrd_of_lt_trans cmp_swap fun a b c hab hbc =>
    cmp_eq_lt.2 (below_trans a b c (cmp_eq_lt.1 hab) (cmp_eq_lt.1 hbc))

/-- Lists of types are ordered lexicographically. -/
theorem cmpList_eq_compare (as bs : List Ty) : cmpList as bs = compare as bs := by
  induction as generalizing bs with
  | nil => cases bs <;> rfl
  | cons a as ih =>
    cases bs with
    | nil => rfl
    | cons b bs =>
      rw [cmpList, ih, List.compare_eq_compareLex, List.compareLex_cons_cons]
      rfl

end Ty

/-! ## Signatures -/

namespace Signature

theorem cmp_eq_compareLex : Signature.cmp = compareLex (compareOn callee) (compareOn args) := by
  funext a b
  simp only [cmp, Ty.cmpList_eq_compare, compareLex, compareOn]

instance : TransOrd Signature := by
  change TransCmp Signature.cmp
  rw [cmp_eq_compareLex]
  infer_instance

theorem cmp_eq_iff {a b : Signature} : cmp a b = .eq ↔ a = b := by
  cases a; cases b
  simp [cmp, Ordering.then_eq_eq, Ty.cmpList_eq_iff]

instance : LawfulEqOrd Signature where
  compare_self := cmp_eq_iff.2 rfl
  eq_of_compare := cmp_eq_iff.1

end Signature

end FrameAudit
