import FrameAudit.CallPath
import FrameAudit.Json.Shape

/-! # Types, signatures and paths in JSON

`toJson` writes a value with every field; `ofJson?` reads what `toJson` writes and the shorter forms
of `FrameAudit.Json.Shape`. Where a value has variants within it, `decode?` reads them in the given
forms, and `ofJson?` in the plain ones. A union is read as it is given, with its members in any
order. -/

namespace FrameAudit

open Json (required optional)

namespace ErrorValue

def toJson (e : ErrorValue) : Json :=
  .object [("error_type", .string e.typeName), ("message", .string e.message)]

def ofJson? (value : Json) : Option ErrorValue := do
  match ← value.record? ["error_type", "message"] with
  | [typeName, message] => return ⟨← required Json.str? typeName, ← optional "" Json.str? message⟩
  | _ => none

end ErrorValue

namespace Constant

def toJson : Constant → Json
  | .nothing => .string "nothing"
  | .bool b => .tagged "bool" (.bool b)
  | .int n => .tagged "int" (.integer n.toInt)
  | .str s => .tagged "str" (.string s)
  | .symbol s => .tagged "symbol" (.string s)
  | .error e => .tagged "error" e.toJson

def decode? (forms : Json.Forms) (value : Json) : Option Constant := do
  match ← value.variant? with
  | ("nothing", payload) => if forms.isUnit payload then some .nothing else none
  | ("bool", some payload) => return .bool (← payload.bool?)
  | ("int", some payload) => return .int (← payload.int64?)
  | ("str", some payload) => return .str (← payload.str?)
  | ("symbol", some payload) => return .symbol (← payload.str?)
  | ("error", some payload) => return .error (← ErrorValue.ofJson? payload)
  | _ => none

def ofJson? (value : Json) : Option Constant := decode? .plain value

end Constant

namespace DataType

def toJson (t : DataType) : Json :=
  .object [("fields", .ofList .string t.fields), ("name", .string t.name)]

def ofJson? (value : Json) : Option DataType := do
  match ← value.record? ["name", "fields"] with
  | [name, fields] =>
    return ⟨← required Json.str? name, ← optional [] (Json.list? Json.str?) fields⟩
  | _ => none

end DataType

namespace Ty

mutual

def toJson : Ty → Json
  | .bottom => .string "bottom"
  | .any => .string "any"
  | .bool => .string "bool"
  | .const c => .tagged "const" c.toJson
  | .concrete t => .tagged "concrete" t.toJson
  | .abstract name admitsBool =>
    .tagged "abstract" (.object [("admits_bool", .bool admitsBool), ("name", .string name)])
  | .union members => .tagged "union" (.array (toJsonList members))

def toJsonList : List Ty → List Json
  | [] => []
  | t :: rest => t.toJson :: toJsonList rest

end

/-- Reads a type that is no union. -/
def decodeSimple? (forms : Json.Forms) (value : Json) : Option Ty := do
  match ← value.variant? with
  | ("bottom", payload) => if forms.isUnit payload then some .bottom else none
  | ("any", payload) => if forms.isUnit payload then some .any else none
  | ("bool", payload) => if forms.isUnit payload then some .bool else none
  | ("const", some payload) => return .const (← Constant.decode? forms payload)
  | ("concrete", some payload) => return .concrete (← DataType.ofJson? payload)
  | ("abstract", some payload) =>
    match ← forms.fields? ["name", "admits_bool"] payload with
    | [name, admitsBool] =>
      return .abstract (← required Json.str? name) (← optional false Json.bool? admitsBool)
    | _ => none
  | _ => none

mutual

def decode? (forms : Json.Forms) : Json → Option Ty
  | .object [(name, .array members)] =>
    if name = "union" then (decodeList? forms members).map .union
    else decodeSimple? forms (.object [(name, .array members)])
  | value => decodeSimple? forms value

def decodeList? (forms : Json.Forms) : List Json → Option (List Ty)
  | [] => some []
  | value :: rest => do return (← decode? forms value) :: (← decodeList? forms rest)

end

def ofJson? (value : Json) : Option Ty := decode? .plain value

end Ty

namespace Signature

def toJson (s : Signature) : Json :=
  .object [("args", .ofList Ty.toJson s.args), ("callee", .string s.callee)]

def decode? (forms : Json.Forms) (value : Json) : Option Signature := do
  match ← value.record? ["callee", "args"] with
  | [callee, args] =>
    return ⟨← required Json.str? callee, ← optional [] (Json.list? (Ty.decode? forms)) args⟩
  | _ => none

def ofJson? (value : Json) : Option Signature := decode? .plain value

end Signature

namespace Position

def toJson (p : Position) : Json :=
  .object [("file", .string p.file), ("line", .integer p.line.toNat)]

def ofJson? (value : Json) : Option Position := do
  match ← value.record? ["file", "line"] with
  | [file, line] => return ⟨← required Json.str? file, ← required Json.uint32? line⟩
  | _ => none

end Position

namespace PathStep

def toJson (s : PathStep) : Json :=
  .object [("position", s.position.toJson), ("signature", s.signature.toJson)]

def ofJson? (value : Json) : Option PathStep := do
  match ← value.record? ["signature", "position"] with
  | [signature, position] =>
    return ⟨← required Signature.ofJson? signature, ← required Position.ofJson? position⟩
  | _ => none

end PathStep

namespace CallPath

def toJson (path : CallPath) : Json := .ofList PathStep.toJson path

def ofJson? (value : Json) : Option CallPath := value.list? PathStep.ofJson?

end CallPath

end FrameAudit
