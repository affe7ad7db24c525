/-! # JSON values

* `Number`: an integer or a double, kept apart;
* `Json`: a JSON value, an object being the list of its members;
* `orderMembers`: members in ascending key order, of a repeated key the last value. -/

namespace FrameAudit

/-- A JSON number. Integers stay integers; a double is finite. -/
inductive Number where
  | integer (value : Int)
  | double (value : Float)

/-- A JSON value. -/
inductive Json where
  | null
  | bool (value : Bool)
  | number (value : Number)
  | string (value : String)
  | array (elements : List Json)
  | object (members : List (String × Json))

namespace Json

variable {α : Type}

/-- Gives `key` the value `value` in a list of members in ascending key order. -/
def setMember (key : String) (value : α) : List (String × α) → List (String × α)
  | [] => [(key, value)]
  | (other, old) :: rest =>
    match compare key other with
    | .lt => (key, value) :: (other, old) :: rest
    | .eq => (key, value) :: rest
    | .gt => (other, old) :: setMember key value rest

/-- The members in ascending key order. Where a key is repeated the last value stands. -/
def orderMembers (members : List (String × α)) : List (String × α) :=
  members.foldl (fun ordered member => setMember member.1 member.2 ordered) []

/-- The value of a member of an object. -/
def member? (key : String) : Json → Option Json
  | .object members => members.lookup key
  | _ => none

/-- An integer as a JSON value. -/
def integer (value : Int) : Json := .number (.integer value)

end Json

end FrameAudit
