/-! # Types of abstract values

A `Ty` is what is known of a value while a program is analysed: nothing can flow here (`bottom`), a
constant, a data type with the fields it is known to have, an abstract type, a union, or anything at
all (`any`). A union is the list of its members; the unions made by `Ty.join` in
`FrameAudit.Ty.Join` are flat and ascending, but any list is a union. -/

namespace FrameAudit

/-- An error object: the name of its type and a message, which may be empty. -/
structure ErrorValue where
  typeName : String
  message : String
deriving DecidableEq

namespace ErrorValue

def render (e : ErrorValue) : String :=
  if e.message.isEmpty then e.typeName else e.typeName ++ ": " ++ e.message

end ErrorValue

/-- A value that is known. -/
inductive Constant where
  | nothing
  | bool (value : Bool)
  | int (value : Int64)
  | str (value : String)
  | symbol (name : String)
  | error (value : ErrorValue)
deriving DecidableEq

namespace Constant

/-- The name of the data type of the constant. -/
def typeName : Constant → String
  | .nothing => "Nothing"
  | .bool _ => "Bool"
  | .int _ => "Int64"
  | .str _ => "String"
  | .symbol _ => "Symbol"
  | .error e => e.typeName

def render : Constant → String
  | .nothing => "nothing"
  | .bool b => if b then "true" else "false"
  | .int n => toString n.toInt
  | .str s => "\"" ++ s ++ "\""
  | .symbol s => ":" ++ s
  | .error e => e.typeName ++ "(\"" ++ e.message ++ "\")"

end Constant

/-- A data type with the names of its fields. -/
structure DataType where
  name : String
  fields : List String
deriving DecidableEq

/-- Whether a type has a field. -/
inductive FieldPresence where
  | present
  | absent
  | unknown
deriving DecidableEq

inductive Ty where
  /-- The empty type. -/
  | bottom
  | any
  | bool
  | const (value : Constant)
  | concrete (type : DataType)
  /-- An abstract type; `admitsBool` tells whether the booleans are among its values. -/
  | abstract (name : String) (admitsBool : Bool)
  | union (members : List Ty)

namespace Ty

/-- No value has the type. Besides `bottom` this holds of the union of nothing. -/
def isBottom : Ty → Bool
  | .bottom => true
  | .union members => members.isEmpty
  | _ => false

/-- The members of a union; any other type is its only component. -/
def components : Ty → List Ty
  | .union members => members
  | t => [t]

/-- Constants and data types. -/
def isConcrete : Ty → Bool
  | .bool | .const _ | .concrete _ => true
  | _ => false

mutual

/-- Some boolean may have the type. -/
def mayBeBool : Ty → Bool
  | .any | .bool | .const (.bool _) => true
  | .abstract _ admitsBool => admitsBool
  | .concrete type => type.name == "Bool"
  | .union members => anyMayBeBool members
  | .bottom | .const _ => false

def anyMayBeBool : List Ty → Bool
  | [] => false
  | t :: rest => t.mayBeBool || anyMayBeBool rest

end

mutual

/-- Every value of the type is a boolean. -/
def isBoolSubtype : Ty → Bool
  | .bottom | .bool | .const (.bool _) => true
  | .concrete type => type.name == "Bool"
  | .union members => allBoolSubtypes members
  | .any | .const _ | .abstract _ _ => false

def allBoolSubtypes : List Ty → Bool
  | [] => true
  | t :: rest => t.isBoolSubtype && allBoolSubtypes rest

end

/-- The constant of a constant type. -/
def constant? : Ty → Option Constant
  | .const value => some value
  | _ => none

/-- Looks a field up. Only data types have a definite answer; booleans and constants have no
fields. -/
def field (name : String) : Ty → FieldPresence
  | .concrete type => if name ∈ type.fields then .present else .absent
  | .bool | .const _ => .absent
  | _ => .unknown

mutual

def render : Ty → String
  | .bottom => "Union\x7b\x7d"
  | .any => "Any"
  | .bool => "Bool"
  | .const value => value.typeName
  | .concrete type => type.name
  | .abstract name _ => name
  | .union members => "Union\x7b" ++ ", ".intercalate (renderAll members) ++ "\x7d"

def renderAll : List Ty → List String
  | [] => []
  | t :: rest => t.render :: renderAll rest

end

/-- Argument types as they stand in a call: each behind `::`, separated by commas. -/
def renderArguments (types : List Ty) : String :=
  ", ".intercalate (types.map fun t => "::" ++ t.render)

end Ty

end FrameAudit
