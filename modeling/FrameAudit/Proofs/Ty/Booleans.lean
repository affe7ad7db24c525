import FrameAudit.Proofs.Ty.Join

/-! # Joins and booleans

Whether a value of a type can be, or must be, a boolean is decided member by member, so it can be
told of a join without looking at the join: some of the joined types may be a boolean, or all of
them are (`Ty.bool_tests_join`). That holds of unions nested to any depth, in any order and with
repetitions, since a join only drops bottoms and copies and opens one level of unions. -/

namespace FrameAudit.Ty

variable {t : Ty} {test : Ty → Bool}

/-- The test holds of a union if it holds of some member. It tells any from bottom. -/
structure Distributes (test : Ty → Bool) : Prop where
  bottom : test .bottom = false
  any : test .any = true
  union : ∀ members, test (.union members) = members.any test

theorem anyMayBeBool_eq_any (members : List Ty) : anyMayBeBool members = members.any mayBeBool := by
  induction members with
  | nil => rfl
  | cons t rest ih => rw [anyMayBeBool, ih, List.any_cons]

theorem allBoolSubtypes_eq_all (members : List Ty) :
    allBoolSubtypes members = members.all isBoolSubtype := by
  induction members with
  | nil => rfl
  | cons t rest ih => rw [allBoolSubtypes, ih, List.all_cons]

theorem distributes_mayBeBool : Distributes mayBeBool where
  bottom := rfl
  any := rfl
  union members := by rw [mayBeBool, anyMayBeBool_eq_any]

/-- Some value of the type is no boolean. -/
theorem distributes_not_isBoolSubtype : Distributes fun t => !t.isBoolSubtype where
  bottom := rfl
  any := rfl
  union members := by rw [isBoolSubtype, allBoolSubtypes_eq_all, List.not_all_eq_any_not]

namespace Distributes

theorem any_components (h : Distributes test) (t : Ty) : t.components.any test = test t := by
  cases t with
  | union members => exact (h.union members).symm
  | _ => exact Bool.or_false _

theorem any_joinParts (h : Distributes test) (t : Ty) : t.joinParts.any test = test t := by
  cases t with
  | bottom => exact h.bottom.symm
  | union members => exact (h.union members).symm
  | _ => exact Bool.or_false _

theorem test_ofMembers (h : Distributes test) (members : List Ty) :
    test (ofMembers members) = members.any test := by
  match members with
  | [] => exact h.bottom
  | [t] => exact (Bool.or_false _).symm
  | a :: b :: rest => exact h.union (a :: b :: rest)

theorem test_join (h : Distributes test) (types : List Ty) :
    test (join types) = true ↔ ∃ t ∈ types, test t = true := by
  by_cases hany : .any ∈ types
  · rw [join_of_any hany]
    exact iff_of_true h.any ⟨.any, hany, h.any⟩
  · rw [join_of_not_any hany, h.test_ofMembers]
    simp only [List.any_eq_true, mem_ascendingSet, List.mem_flatMap]
    constructor
    · rintro ⟨c, ⟨t, ht, hc⟩, hcond⟩
      refine ⟨t, ht, ?_⟩
      rw [← h.any_joinParts]
      exact List.any_eq_true.2 ⟨c, hc, hcond⟩
    · rintro ⟨t, ht, hcond⟩
      rw [← h.any_joinParts] at hcond
      obtain ⟨c, hc, hcond⟩ := List.any_eq_true.1 hcond
      exact ⟨c, ⟨t, ht, hc⟩, hcond⟩

end Distributes

theorem isBoolSubtype_join (types : List Ty) :
    (join types).isBoolSubtype = true ↔ ∀ t ∈ types, t.isBoolSubtype = true := by
  have h := not_congr (distributes_not_isBoolSubtype.test_join types)
  simpa using h

theorem Canonical.mayBeBool_of_isBoolSubtype (h : t.Canonical) (hs : t.isBoolSubtype = true)
    (hb : t.isBottom = false) : t.mayBeBool = true := by
  obtain ⟨c, hc⟩ := exists_mem_components hb
  have hcs : c.isBoolSubtype = true := by
    have hall := distributes_not_isBoolSubtype.any_components t
    rw [hs, Bool.not_true, List.any_eq_false] at hall
    simpa using hall c hc
  rw [← distributes_mayBeBool.any_components]
  exact List.any_eq_true.2 ⟨c, hc, h.mayBeBool_of_mem_components hb hc hcs⟩

/-- A join may be a boolean if one of the types may be, and is a subtype of the booleans if all of
them are, whatever the types. If the types are canonical, it is bottom if all of them are. A
canonical type that is a subtype of the booleans may be a boolean, unless it is bottom. -/
theorem bool_tests_join (types : List Ty) :
    ((join types).mayBeBool = true ↔ ∃ t ∈ types, t.mayBeBool = true) ∧
    ((join types).isBoolSubtype = true ↔ ∀ t ∈ types, t.isBoolSubtype = true) ∧
    ((∀ t ∈ types, t.Canonical) →
      ((join types).isBottom = true ↔ ∀ t ∈ types, t.isBottom = true)) ∧
    ∀ t : Ty, t.Canonical → t.isBoolSubtype = true → t.isBottom = false → t.mayBeBool = true := by
  refine ⟨distributes_mayBeBool.test_join types, isBoolSubtype_join types, isBottom_join_iff, ?_⟩
  intro t h hs hb
  exact h.mayBeBool_of_isBoolSubtype hs hb

/-- Unions inside of unions, with bottom and the union of nothing among their members. -/
def nestedBooleans : List Ty :=
  [.union [.bottom, .union [.const (.bool true), .union []]], .bottom, .union [.bool]]

/-- The same booleans without the nesting. -/
def flatBooleans : List Ty := [.bottom, .union [.bool, .const (.bool true)]]

theorem bool_tests_join_nestedBooleans :
    (¬∀ t ∈ nestedBooleans, t.Canonical) ∧ (join nestedBooleans).mayBeBool = true ∧
    (join nestedBooleans).isBoolSubtype = true ∧
    (∀ t ∈ flatBooleans, t.Canonical) ∧ (join flatBooleans).isBottom = false ∧
    (join flatBooleans).isBoolSubtype = true ∧ (join flatBooleans).mayBeBool = true := by
  obtain ⟨hmay, hsubtype, -, -⟩ := bool_tests_join nestedBooleans
  obtain ⟨-, hsubtype', hbottom, hcanonical⟩ := bool_tests_join flatBooleans
  have hflat : ∀ t ∈ flatBooleans, t.Canonical := by decide +kernel
  have hb : (join flatBooleans).isBottom = false := by
    rw [← Bool.not_eq_true, hbottom hflat]
    decide
  have hs : (join flatBooleans).isBoolSubtype = true := hsubtype'.2 (by decide)
  exact ⟨by decide, hmay.2 ⟨_, List.mem_cons_self, rfl⟩, hsubtype.2 (by decide), hflat, hb, hs,
    hcanonical _ (canonical_join hflat) hs hb⟩

end FrameAudit.Ty
