import FrameAudit.Format.Ty
import FrameAudit.Report.Basic

/-! # Reports in JSON

A finding is an object whose member `kind` names its kind and whose other members are its fields, or
an array of the kind and then the fields in order. Which fields there are depends on the kind
(`ReportKind.fieldNames`), and all are required. Variants in the fields are read in the loose forms;
elsewhere, as in the path of a report, in the plain ones. -/

namespace FrameAudit

open Json (required optional)

namespace ReportKind

def toJson (k : ReportKind) : Json := .string k.name

def ofJson? (value : Json) : Option ReportKind := do
  let (name, payload) ← value.variant?
  if Json.Forms.plain.isUnit payload then ofName? name else none

/-- The names of the fields of a finding, in order. -/
def fieldNames : ReportKind → List String
  | .generatorError => ["error"]
  | .localUndefVar => ["slot"]
  | .uncaughtException => ["raises"]
  | .noMethodError => ["signatures", "splits"]
  | .invalidReturnTypeCall => []
  | .invalidInvoke => ["arg_types"]
  | .globalUndefVar => ["scope", "name"]
  | .nonBooleanCond => ["types", "splits"]
  | .seriousException => ["error", "position"]
  | .noFieldError => ["ty", "field"]
  | .divideError => []
  | .invalidBuiltinCall | .unimplementedBuiltinCall => ["op", "arg_types"]

end ReportKind

namespace RaiseSite

def toJson (r : RaiseSite) : Json :=
  .object [("expr", .string r.expr), ("position", r.position.toJson)]

def ofJson? (value : Json) : Option RaiseSite := do
  match ← value.record? ["position", "expr"] with
  | [position, expr] => return ⟨← required Position.ofJson? position, ← required Json.str? expr⟩
  | _ => none

end RaiseSite

namespace Finding

/-- The members besides the kind. -/
def members : Finding → List (String × Json)
  | .generatorError error => [("error", error.toJson)]
  | .localUndefVar slot => [("slot", .string slot)]
  | .uncaughtException raises => [("raises", .ofList RaiseSite.toJson raises)]
  | .noMethodError signatures splits =>
    [("signatures", .ofList Signature.toJson signatures), ("splits", .integer splits)]
  | .invalidReturnTypeCall => []
  | .invalidInvoke argTypes => [("arg_types", .ofList Ty.toJson argTypes)]
  | .globalUndefVar scope name => [("name", .string name), ("scope", .string scope)]
  | .nonBooleanCond types splits =>
    [("splits", .integer splits), ("types", .ofList Ty.toJson types)]
  | .seriousException error position =>
    [("error", error.toJson), ("position", position.toJson)]
  | .noFieldError type field => [("field", .string field), ("ty", type.toJson)]
  | .divideError => []
  | .invalidBuiltinCall op argTypes | .unimplementedBuiltinCall op argTypes =>
    [("arg_types", .ofList Ty.toJson argTypes), ("op", .string op)]

def toJson (d : Finding) : Json := .object (("kind", d.kind.toJson) :: d.members)

/-- The name of the kind of a finding, and the value that holds its fields. -/
def parts? : Json → Option (String × Json)
  | .array (.string kind :: fields) => some (kind, .array fields)
  | .object members => do
    match ← members.lookup "kind" with
    | .string kind => some (kind, .object members)
    | _ => none
  | _ => none

/-- The finding of a kind with the given fields, which are in the order of
`ReportKind.fieldNames`. -/
def ofFields? : ReportKind → List (Option Json) → Option Finding
  | .generatorError, [error] => return .generatorError (← required ErrorValue.ofJson? error)
  | .localUndefVar, [slot] => return .localUndefVar (← required Json.str? slot)
  | .uncaughtException, [raises] =>
    return .uncaughtException (← required (Json.list? RaiseSite.ofJson?) raises)
  | .noMethodError, [signatures, splits] =>
    return .noMethodError (← required (Json.list? (Signature.decode? .loose)) signatures)
      (← required Json.count? splits)
  | .invalidReturnTypeCall, [] => some .invalidReturnTypeCall
  | .invalidInvoke, [argTypes] => return .invalidInvoke (← required types? argTypes)
  | .globalUndefVar, [scope, name] =>
    return .globalUndefVar (← required Json.str? scope) (← required Json.str? name)
  | .nonBooleanCond, [types, splits] =>
    return .nonBooleanCond (← required types? types) (← required Json.count? splits)
  | .seriousException, [error, position] =>
    return .seriousException (← required ErrorValue.ofJson? error)
      (← required Position.ofJson? position)
  | .noFieldError, [type, field] =>
    return .noFieldError (← required (Ty.decode? .loose) type) (← required Json.str? field)
  | .divideError, [] => some .divideError
  | .invalidBuiltinCall, [op, argTypes] =>
    return .invalidBuiltinCall (← required Json.str? op) (← required types? argTypes)
  | .unimplementedBuiltinCall, [op, argTypes] =>
    return .unimplementedBuiltinCall (← required Json.str? op) (← required types? argTypes)
  | _, _ => none
where
  /-- The types in a finding. -/
  types? : Json → Option (List Ty) := Json.list? (Ty.decode? .loose)

def ofJson? (value : Json) : Option Finding := do
  let (name, fields) ← parts? value
  let kind ← ReportKind.ofName? name
  ofFields? kind (← fields.record? kind.fieldNames)

end Finding

namespace Report

def toJson (r : Report) : Json :=
  .object [("detail", r.finding.toJson), ("location", r.path.toJson)]

def ofJson? (value : Json) : Option Report := do
  match ← value.record? ["location", "detail"] with
  | [path, finding] =>
    return ⟨← required CallPath.ofJson? path, ← required Finding.ofJson? finding⟩
  | _ => none

end Report

end FrameAudit
