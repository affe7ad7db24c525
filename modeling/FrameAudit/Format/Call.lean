import FrameAudit.Body
import FrameAudit.Call
import FrameAudit.Format.Ty

/-! # Calls and bodies in JSON -/

namespace FrameAudit

open Json (required optional)

namespace SplitCase

def toJson (s : SplitCase) : Json :=
  .object [("candidates", .integer s.candidates), ("signature", s.signature.toJson)]

def ofJson? (value : Json) : Option SplitCase := do
  match ← value.record? ["signature", "candidates"] with
  | [signature, candidates] =>
    return ⟨← required Signature.ofJson? signature, ← required Json.count? candidates⟩
  | _ => none

end SplitCase

namespace Resolution

def toJson (i : Resolution) : Json := .object [("splits", .ofList SplitCase.toJson i.splits)]

def ofJson? (value : Json) : Option Resolution := do
  match ← value.record? ["splits"] with
  | [splits] => return ⟨← required (Json.list? SplitCase.ofJson?) splits⟩
  | _ => none

end Resolution

namespace Intrinsic

namespace Role

def toJson : Role → Json
  | .fieldAccess field => .tagged "field_access" (.object [("field", .string field)])
  | .integerDivision => .string "integer_division"
  | .other => .string "other"

def ofJson? (value : Json) : Option Role := do
  match ← value.variant? with
  | ("field_access", some payload) =>
    match ← payload.fields? ["field"] with
    | [field] => return .fieldAccess (← required Json.str? field)
    | _ => none
  | ("integer_division", payload) =>
    if Json.Forms.plain.isUnit payload then some .integerDivision else none
  | ("other", payload) => if Json.Forms.plain.isUnit payload then some .other else none
  | _ => none

end Role

def toJson (i : Intrinsic) : Json :=
  .object [("kind", i.role.toJson), ("modeled", .bool i.modeled), ("name", .string i.name)]

def ofJson? (value : Json) : Option Intrinsic := do
  match ← value.record? ["name", "kind", "modeled"] with
  | [name, role, modeled] =>
    return ⟨← required Json.str? name, ← optional .other Role.ofJson? role,
      ← optional true Json.bool? modeled⟩
  | _ => none

end Intrinsic

namespace Instruction

def toJson : Instruction → Json
  | .raise position expr =>
    .tagged "raise" (.object [("expr", .string expr), ("position", position.toJson)])
  | .undefCheck position slot =>
    .tagged "undef_check" (.object [("position", position.toJson), ("slot", .string slot)])
  | .unreachable position => .tagged "unreachable" (.object [("position", position.toJson)])
  | .statement position => .tagged "statement" (.object [("position", position.toJson)])

def ofJson? (value : Json) : Option Instruction := do
  match ← value.variant? with
  | ("raise", some payload) =>
    match ← payload.fields? ["position", "expr"] with
    | [position, expr] =>
      return .raise (← required Position.ofJson? position) (← required Json.str? expr)
    | _ => none
  | ("undef_check", some payload) =>
    match ← payload.fields? ["position", "slot"] with
    | [position, slot] =>
      return .undefCheck (← required Position.ofJson? position) (← required Json.str? slot)
    | _ => none
  | ("unreachable", some payload) =>
    match ← payload.fields? ["position"] with
    | [position] => return .unreachable (← required Position.ofJson? position)
    | _ => none
  | ("statement", some payload) =>
    match ← payload.fields? ["position"] with
    | [position] => return .statement (← required Position.ofJson? position)
    | _ => none
  | _ => none

end Instruction

end FrameAudit
