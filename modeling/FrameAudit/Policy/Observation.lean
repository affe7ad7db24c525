import FrameAudit.Body
import FrameAudit.Call
import FrameAudit.Report.Finding

/-! # Observations

What inference meets in a frame and asks the policy about. Each kind of observation can become one
kind of report. -/

namespace FrameAudit

inductive Observation where
  /-- The body of the frame could not be generated. -/
  | generatorFailure (error : ErrorValue)
  /-- A local variable may be undefined; `definite` if it surely is. -/
  | undefCheck (slot : String) (definite : Bool)
  /-- Raises that nothing catches, in a frame with the given result. -/
  | uncaught (raises : List RaiseSite) (result : Ty)
  | callResolution (call : ResolvedCall)
  /-- A query for the return type of a call, made with `argCount` arguments. -/
  | returnTypeQuery (argCount : Nat)
  /-- A call of a chosen method; `calleeResult` is the result of the callee's frame, if any. -/
  | explicitDispatch (argTypes : List Ty) (call : ResolvedCall) (calleeResult : Option Ty)
  | globalReference (scope name : String) (resolved : Bool)
  | condition (observed : Ty)
  | raise (thrown : Ty) (position : Position)
  | fieldAccess (object : Ty) (field : String)
  | division (divisor : Ty)
  | builtinResult (op : Intrinsic) (argTypes : List Ty) (observed : Ty)
  | unmodeledBuiltin (op : Intrinsic) (argTypes : List Ty)
deriving DecidableEq

namespace Observation

/-- The kind of the report that the observation can become. -/
def kind : Observation → ReportKind
  | .generatorFailure _ => .generatorError
  | .undefCheck _ _ => .localUndefVar
  | .uncaught _ _ => .uncaughtException
  | .callResolution _ => .noMethodError
  | .returnTypeQuery _ => .invalidReturnTypeCall
  | .explicitDispatch _ _ _ => .invalidInvoke
  | .globalReference _ _ _ => .globalUndefVar
  | .condition _ => .nonBooleanCond
  | .raise _ _ => .seriousException
  | .fieldAccess _ _ => .noFieldError
  | .division _ => .divideError
  | .builtinResult _ _ _ => .invalidBuiltinCall
  | .unmodeledBuiltin _ _ => .unimplementedBuiltinCall

end Observation

/-- What a policy may know of the frame of an observation. -/
structure FrameView where
  signature : Signature
  isEntry : Bool
deriving DecidableEq

namespace FrameView

/-- The frame is an entry, or all its arguments are concrete. -/
def isEntryOrConcrete (v : FrameView) : Bool := v.isEntry || v.signature.isConcrete

end FrameView

end FrameAudit
