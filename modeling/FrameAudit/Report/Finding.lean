import FrameAudit.CallPath
import FrameAudit.Report.Kind

/-! # Findings

What a report says, apart from where: one constructor for each kind of report. -/

namespace FrameAudit

/-- A statement that raises the value of an expression. -/
structure RaiseSite where
  position : Position
  expr : String
deriving DecidableEq

namespace RaiseSite

def cmp (a b : RaiseSite) : Ordering := (a.position.cmp b.position).then (compare a.expr b.expr)

instance : Ord RaiseSite := ⟨cmp⟩

end RaiseSite

inductive Finding where
  | generatorError (error : ErrorValue)
  | localUndefVar (slot : String)
  | uncaughtException (raises : List RaiseSite)
  /-- The signatures without a method, of a call that was split into `splits` cases. -/
  | noMethodError (signatures : List Signature) (splits : Nat)
  | invalidReturnTypeCall
  | invalidInvoke (argTypes : List Ty)
  | globalUndefVar (scope name : String)
  /-- The types that are no booleans, of a condition with `splits` components. -/
  | nonBooleanCond (types : List Ty) (splits : Nat)
  | seriousException (error : ErrorValue) (position : Position)
  | noFieldError (type : Ty) (field : String)
  | divideError
  | invalidBuiltinCall (op : String) (argTypes : List Ty)
  | unimplementedBuiltinCall (op : String) (argTypes : List Ty)
deriving DecidableEq

namespace Finding

def kind : Finding → ReportKind
  | .generatorError _ => .generatorError
  | .localUndefVar _ => .localUndefVar
  | .uncaughtException _ => .uncaughtException
  | .noMethodError _ _ => .noMethodError
  | .invalidReturnTypeCall => .invalidReturnTypeCall
  | .invalidInvoke _ => .invalidInvoke
  | .globalUndefVar _ _ => .globalUndefVar
  | .nonBooleanCond _ _ => .nonBooleanCond
  | .seriousException _ _ => .seriousException
  | .noFieldError _ _ => .noFieldError
  | .divideError => .divideError
  | .invalidBuiltinCall _ _ => .invalidBuiltinCall
  | .unimplementedBuiltinCall _ _ => .unimplementedBuiltinCall

/-- How many of the cases fail; said only if there is more than one case. -/
def splitShare (failing splits : Nat) : String :=
  if 1 < splits then s!" ({failing}/{splits} union split)" else ""

/-- The first signature follows a blank, the others a comma. -/
def renderSignatures : List Signature → String
  | [] => ""
  | signatures => " " ++ ", ".intercalate (signatures.map fun s => "`" ++ s.render ++ "`")

/-- A single expression stands for itself; otherwise each one stands with its position. -/
def renderRaises : List RaiseSite → String
  | [single] => "may throw `" ++ single.expr ++ "`"
  | raises => "may throw either of:" ++
      String.join (raises.map fun r => " `" ++ r.expr ++ "` at " ++ r.position.render ++ ";")

def render : Finding → String
  | .generatorError error => "failed to generate a method body: " ++ error.render
  | .localUndefVar slot => "local variable `" ++ slot ++ "` is not defined"
  | .uncaughtException raises => renderRaises raises
  | .noMethodError signatures splits =>
    "no matching method found" ++ renderSignatures signatures ++
      splitShare signatures.length splits
  | .invalidReturnTypeCall =>
    "invalid return type query: expected a function and an argument tuple"
  | .invalidInvoke argTypes =>
    "invalid explicit dispatch call with argument types (" ++ Ty.renderArguments argTypes ++ ")"
  | .globalUndefVar scope name => "`" ++ scope ++ "." ++ name ++ "` is not defined"
  | .nonBooleanCond types splits =>
    "non-boolean (" ++ Ty.renderArguments types ++ ") found in boolean context" ++
      splitShare types.length splits
  | .seriousException error _ => error.render
  | .noFieldError type field => "type `" ++ type.render ++ "` has no field `" ++ field ++ "`"
  | .divideError => "DivideError: integer division error"
  | .invalidBuiltinCall op argTypes =>
    "invalid builtin call `" ++ op ++ "(" ++ Ty.renderArguments argTypes ++ ")`"
  | .unimplementedBuiltinCall op argTypes =>
    "unimplemented builtin call `" ++ op ++ "(" ++ Ty.renderArguments argTypes ++ ")`"

end Finding

end FrameAudit
