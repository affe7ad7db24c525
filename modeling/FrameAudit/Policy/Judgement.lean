import FrameAudit.Order.Ascending
import FrameAudit.Policy.Basic
import FrameAudit.Policy.Catalog
import FrameAudit.Policy.Observation

/-! # Judging observations

`Policy.judge` gives the finding that an observation amounts to, if the policy reports it. Wrappers
around a policy do not matter, only its strictness. -/

namespace FrameAudit

/-- The condition types that are no booleans, if there are any, with the number of components. -/
def nonBoolean? (observed : Ty) (fails : Ty → Bool) : Option Finding :=
  match observed.components.filter fails with
  | [] => none
  | types => some (.nonBooleanCond types observed.components.length)

/-- The signatures for which no method was found, if there are any, in ascending order. -/
def noMethod? (resolution : Resolution) : Option Finding :=
  match (resolution.splits.filter (·.candidates == 0)).map SplitCase.signature with
  | [] => none
  | failing => some (.noMethodError (ascending failing) resolution.splits.length)

/-- The finding of a raise: a constant error of a serious type. -/
def serious? (thrown : Ty) (position : Position) : Option Finding :=
  match thrown.constant? with
  | some (.error e) =>
    if Catalog.standard.isSerious e.typeName then some (.seriousException e position) else none
  | _ => none

namespace Strictness

/-- In a frame that is no entry and has abstract arguments, the basic policy does not look at calls,
conditions and raises. -/
def looksAt (strictness : Strictness) (frame : FrameView) : Bool :=
  strictness == .sound || frame.isEntryOrConcrete

def judge (strictness : Strictness) (frame : FrameView) : Observation → Option Finding
  | .generatorFailure error => some (.generatorError error)
  | .undefCheck slot definite =>
    if strictness = .sound ∨ definite then some (.localUndefVar slot) else none
  | .uncaught [] _ => none
  | .uncaught raises result =>
    if strictness = .sound ∨ result.isBottom then some (.uncaughtException raises) else none
  | .callResolution call => if strictness.looksAt frame then noMethod? call.resolution else none
  | .returnTypeQuery argCount => if argCount = 3 then none else some .invalidReturnTypeCall
  | .explicitDispatch argTypes call calleeResult =>
    if call.result.isBottom && !calleeResult.any Ty.isBottom then some (.invalidInvoke argTypes)
    else none
  | .globalReference scope name resolved =>
    if resolved || (strictness == .basic && Catalog.standard.isShim scope name) then none
    else some (.globalUndefVar scope name)
  | .condition observed =>
    if observed.isBottom || !strictness.looksAt frame then none
    else nonBoolean? observed fun t =>
      match strictness with
      | .basic => !t.mayBeBool
      | .sound => !t.isBoolSubtype
  | .raise thrown position => if strictness.looksAt frame then serious? thrown position else none
  | .fieldAccess object field =>
    if object.field field = .absent then some (.noFieldError object field) else none
  | .division divisor =>
    if divisor.constant? = some (.int 0) then some .divideError else none
  | .builtinResult op argTypes observed =>
    if observed.isBottom then some (.invalidBuiltinCall op.name argTypes) else none
  | .unmodeledBuiltin op argTypes => some (.unimplementedBuiltinCall op.name argTypes)

end Strictness

namespace Policy

/-- The finding of an observation made in `frame`, if the policy reports it. -/
def judge (policy : Policy) (frame : FrameView) (observation : Observation) : Option Finding :=
  policy.strictness.judge frame observation

end Policy

end FrameAudit
