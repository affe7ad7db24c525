import FrameAudit.Json.Basic

/-! # Shapes of JSON values

How records and variants are laid out in JSON.

* A record is an object with a member for each field, or an array of the fields in order whose
  last ones may be left off (`record?`). Members that name no field are ignored.
* A variant without payload is its name, or an object of its name and an empty payload; a variant
  with a payload is an object of its name and the payload (`variant?`).
* Which values are an empty payload, and whether the fields of a variant may stand in an array,
  depends on where the variant stands (`Forms`). -/

namespace FrameAudit

namespace Json

variable {α : Type}

/-! ## Basic values -/

def bool? : Json → Option Bool
  | .bool b => some b
  | _ => none

def str? : Json → Option String
  | .string s => some s
  | _ => none

/-- A 64-bit integer. -/
def int64? : Json → Option Int64
  | .number (.integer n) =>
    if Int64.minValue.toInt ≤ n ∧ n ≤ Int64.maxValue.toInt then some (Int64.ofInt n) else none
  | _ => none

/-- An unsigned 32-bit integer. -/
def uint32? : Json → Option UInt32
  | .number (.integer n) =>
    if 0 ≤ n ∧ n.toNat < UInt32.size then some (UInt32.ofNat n.toNat) else none
  | _ => none

/-- A number of things, which has at most 64 bits. -/
def count? : Json → Option Nat
  | .number (.integer n) => if 0 ≤ n ∧ n.toNat < UInt64.size then some n.toNat else none
  | _ => none

/-- A list, given how its elements are read. -/
def list? (element? : Json → Option α) : Json → Option (List α)
  | .array elements => elements.mapM element?
  | _ => none

/-- A list as JSON, given how its elements are written. -/
def ofList (write : α → Json) (elements : List α) : Json := .array (elements.map write)

/-- The members of an object. -/
def members? : Json → Option (List (String × Json))
  | .object members => some members
  | _ => none

/-! ## Records -/

/-- The fields of an object, in the order of `names`. -/
def fields? (names : List String) : Json → Option (List (Option Json))
  | .object members => some (names.map fun name => members.lookup name)
  | _ => none

/-- The fields of a record, in the order of `names`. A field may be missing. -/
def record? (names : List String) : Json → Option (List (Option Json))
  | .array elements =>
    if elements.length ≤ names.length then
      some (elements.map some ++ List.replicate (names.length - elements.length) none)
    else none
  | value => fields? names value

/-- Reads a field that must be there. -/
def required (read? : Json → Option α) (field : Option Json) : Option α := field >>= read?

/-- Reads a field that stands for `default` when it is missing. -/
def optional (default : α) (read? : Json → Option α) : Option Json → Option α
  | none => some default
  | some value => read? value

/-! ## Variants -/

/-- The name of a variant and its payload. -/
def variant? : Json → Option (String × Option Json)
  | .string name => some (name, none)
  | .object [(name, payload)] => some (name, some payload)
  | _ => none

/-- Which payloads a variant may have. -/
inductive Forms where
  /-- Null is the only empty payload, and fields stand in an object. -/
  | plain
  /-- The empty object is an empty payload too, and fields stand in an object or an array. -/
  | loose
  deriving DecidableEq, Repr

namespace Forms

/-- The payload of a variant that has none. -/
def isUnit : Forms → Option Json → Bool
  | _, none => true
  | _, some .null => true
  | .loose, some (.object []) => true
  | _, some _ => false

/-- The fields in the payload of a variant, in the order of `names`. -/
def fields? : Forms → List String → Json → Option (List (Option Json))
  | .plain, names, payload => payload.fields? names
  | .loose, names, payload => payload.record? names

end Forms

/-- A variant with a payload. -/
def tagged (name : String) (payload : Json) : Json := .object [(name, payload)]

end Json

end FrameAudit
