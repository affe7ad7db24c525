import FrameAudit.Order.Ascending
import FrameAudit.Ty.Order

/-! # The join of types

`Ty.join` makes one type of several: bottoms are dropped, the members of unions take part
themselves, and the rest is put in ascending order without repetition. `any` absorbs everything.

The unions it makes of canonical types are canonical: they have at least two members, in strictly
ascending order, none of which is bottom, any or a union. A component of a canonical type that is
known to be a boolean may be one; bottom is the only type for which that fails. -/

namespace FrameAudit

namespace Ty

/-- What a type contributes to a join: a union its members, bottom nothing. -/
def joinParts : Ty → List Ty
  | .bottom => []
  | .union members => members
  | t => [t]

/-- The union of members in ascending order: of none it is bottom, of one that member. -/
def ofMembers : List Ty → Ty
  | [] => .bottom
  | [t] => t
  | members => .union members

/-- The join of a list of types. -/
def join (types : List Ty) : Ty :=
  if .any ∈ types then .any else ofMembers (ascendingSet (types.flatMap joinParts))

/-! ## Canonical types -/

/-- The type can be a member of a canonical union. -/
def isAtom : Ty → Bool
  | .bottom | .any | .union _ => false
  | .bool | .const _ | .concrete _ | .abstract _ _ => true

def Canonical : Ty → Prop
  | .union members => 2 ≤ members.length ∧ members.Pairwise (fun a b => compare a b = .lt) ∧
      ∀ t ∈ members, t.isAtom = true
  | .bottom | .any | .bool | .const _ | .concrete _ | .abstract _ _ => True

instance : DecidablePred Canonical
  | .union members => inferInstanceAs (Decidable (2 ≤ members.length ∧
      members.Pairwise (fun a b => compare a b = .lt) ∧ ∀ t ∈ members, t.isAtom = true))
  | .bottom | .any | .bool | .const _ | .concrete _ | .abstract _ _ =>
    inferInstanceAs (Decidable True)

variable {t c : Ty}

theorem exists_mem_components (h : t.isBottom = false) : ∃ c, c ∈ t.components := by
  cases t with
  | union members =>
    cases members with
    | nil => cases h
    | cons c rest => exact ⟨c, List.mem_cons_self⟩
  | _ => exact ⟨_, List.mem_singleton_self _⟩

theorem mayBeBool_of_isAtom (ha : t.isAtom = true) (hs : t.isBoolSubtype = true) :
    t.mayBeBool = true := by
  cases t with
  | const value => cases value <;> simp_all [isBoolSubtype, mayBeBool]
  | _ => simp_all [isAtom, isBoolSubtype, mayBeBool]

theorem Canonical.mayBeBool_of_mem_components (h : t.Canonical) (hb : t.isBottom = false)
    (hc : c ∈ t.components) (hs : c.isBoolSubtype = true) : c.mayBeBool = true := by
  cases t with
  | union members => exact mayBeBool_of_isAtom (h.2.2 c hc) hs
  | bottom => cases hb
  | any => simp_all [components, isBoolSubtype]
  | _ =>
    obtain rfl := List.mem_singleton.1 hc
    exact mayBeBool_of_isAtom rfl hs

end Ty

end FrameAudit
