import FrameAudit.Analysis.State

/-! # Observing frames

What inference meets at the statements of a frame. Operations that only observe tell whether a new
report was recorded; those that stand between inference and a value give back that value. -/

namespace FrameAudit

namespace Analysis

/-- Observes, and tells whether a new report was recorded. -/
def observeNew (f : FrameId) (position : Position) (observation : Observation) :
    AnalysisM Bool := do
  return (← observe f position observation) == some true

/-- Aborts a frame, which takes no further reports. -/
def closeAborted (f : FrameId) (error : ErrorValue) : AnalysisM Unit := do
  updateFrame f fun r => { r with aborted := true, result := .bottom }
  settle f
  eraseStack f
  emit (.aborted f error)

/-- The body of a frame could not be generated. This is reported, and the frame is aborted. -/
def abortFrame (f : FrameId) (position : Position) (error : ErrorValue) : AnalysisM Bool := do
  let recorded ← observeNew f position (.generatorFailure error)
  closeAborted f error
  return recorded

/-- The methods of a call were looked up. -/
def resolveCall (f : FrameId) (position : Position) (call : ResolvedCall) :
    AnalysisM ResolvedCall := do
  discard (observe f position (.callResolution call))
  return call

/-- The current result of the callee of a call, if the callee has a frame. -/
def calleeResult (call : ResolvedCall) : AnalysisM (Option Ty) := do
  match call.callee with
  | some callee => return some (← frame callee).result
  | none => return none

/-- A chosen method was called. -/
def dispatchCall (f : FrameId) (position : Position) (argTypes : List Ty) (call : ResolvedCall) :
    AnalysisM ResolvedCall := do
  let result ← calleeResult call
  discard (observe f position (.explicitDispatch argTypes call result))
  return call

/-- What the role of a modelled operation says about its arguments. There is no answer if it says
nothing. -/
def observeRole (f : FrameId) (position : Position) (role : Intrinsic.Role) (argTypes : List Ty) :
    AnalysisM (Option Bool) :=
  match role, argTypes with
  | .fieldAccess field, object :: _ => observe f position (.fieldAccess object field)
  | .integerDivision, _ :: divisor :: _ => observe f position (.division divisor)
  | _, _ => return none

/-- A primitive operation was evaluated to `observed`. Gives the result to go on with, which is
bottom if the operation is known to fail. -/
def evaluateIntrinsic (f : FrameId) (position : Position) (op : Intrinsic) (argTypes : List Ty)
    (observed : Ty) : AnalysisM Ty := do
  if op.modeled then
    if (← observeRole f position op.role argTypes).isSome then return .bottom
    else
      discard (observe f position (.builtinResult op argTypes observed))
      return observed
  else
    discard (observe f position (.unmodeledBuiltin op argTypes))
    return observed

end Analysis

end FrameAudit
