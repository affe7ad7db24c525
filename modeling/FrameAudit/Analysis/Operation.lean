import FrameAudit.Analysis.Completion
import FrameAudit.Analysis.Entering
import FrameAudit.Analysis.Observing

/-! # Operations on an analysis

`Operation` lists everything that can be asked of an analysis, `Answer` what comes back, and
`Analysis.perform` carries one operation out. A history of an analysis is a list of operations. -/

namespace FrameAudit

inductive Operation where
  | enterEntry (signature : Signature)
  | enterCall (signature : Signature) (site : CallSite)
  | abortFrame (frame : FrameId) (position : Position) (error : ErrorValue)
  | resolveCall (frame : FrameId) (position : Position) (call : ResolvedCall)
  | queryReturnType (frame : FrameId) (position : Position) (argCount : Nat)
  | dispatchCall (frame : FrameId) (position : Position) (argTypes : List Ty)
      (call : ResolvedCall)
  | readGlobal (frame : FrameId) (position : Position) (scope name : String) (resolved : Bool)
  | evaluateCondition (frame : FrameId) (position : Position) (observed : Ty)
  | evaluateRaise (frame : FrameId) (position : Position) (thrown : Ty)
  | evaluateIntrinsic (frame : FrameId) (position : Position) (op : Intrinsic)
      (argTypes : List Ty) (observed : Ty)
  | finishFrame (frame : FrameId) (result : Ty) (body : List Instruction)
  | publishResult (frame : FrameId) (result : Ty)
  | askSignature (frame : FrameId)
  | askResult (frame : FrameId)
  | askPhase (frame : FrameId)
  | askReports (frame : FrameId)
  | freeze
deriving DecidableEq

namespace Operation

/-- The frame that the operation is about. -/
def frame? : Operation → Option FrameId
  | .enterEntry _ | .enterCall _ _ | .freeze => none
  | .abortFrame f _ _ | .resolveCall f _ _ | .queryReturnType f _ _ | .dispatchCall f _ _ _
  | .readGlobal f _ _ _ _ | .evaluateCondition f _ _ | .evaluateRaise f _ _
  | .evaluateIntrinsic f _ _ _ _ | .finishFrame f _ _ | .publishResult f _ | .askSignature f
  | .askResult f | .askPhase f | .askReports f => some f

end Operation

inductive Answer where
  | frame (frame : FrameId)
  | entered (entered : Entered)
  | recorded (isNew : Bool)
  | resolved (call : ResolvedCall)
  | type (type : Ty)
  | body (body : List Instruction)
  | retracted (reports : Nat)
  | signature (signature : Signature)
  | phase (phase : Phase)
  | reports (reports : List Report)
  | done
deriving DecidableEq

namespace Analysis

/-- The reports of a frame, once its ledger is frozen. -/
def frozenReports (f : FrameId) : AnalysisM (List Report) := do
  match (← frame f).ledger.frozenReports? with
  | some reports => return reports
  | none => throw (.notFrozen f)

/-- Freezes every ledger. Frames that are being analysed are left as they are. -/
def freeze (s : Analysis) : Analysis :=
  { s with frames := s.frames.map fun r => { r with ledger := r.ledger.freeze }, stack := [] }

def perform : Operation → AnalysisM Answer
  | .enterEntry signature => return .frame (← enterEntry signature)
  | .enterCall signature site => return .entered (← enterCall signature site)
  | .abortFrame f position error => return .recorded (← abortFrame f position error)
  | .resolveCall f position call => return .resolved (← resolveCall f position call)
  | .queryReturnType f position argCount =>
    return .recorded (← observeNew f position (.returnTypeQuery argCount))
  | .dispatchCall f position argTypes call =>
    return .resolved (← dispatchCall f position argTypes call)
  | .readGlobal f position scope name resolved =>
    return .recorded (← observeNew f position (.globalReference scope name resolved))
  | .evaluateCondition f position observed =>
    return .recorded (← observeNew f position (.condition observed))
  | .evaluateRaise f position thrown =>
    return .recorded (← observeNew f position (.raise thrown position))
  | .evaluateIntrinsic f position op argTypes observed =>
    return .type (← evaluateIntrinsic f position op argTypes observed)
  | .finishFrame f result body => return .body (← finishFrame f result body)
  | .publishResult f result => return .retracted (← publishResult f result)
  | .askSignature f => return .signature (← frame f).signature
  | .askResult f => return .type (← frame f).result
  | .askPhase f => return .phase (← frame f).ledger.phase
  | .askReports f => return .reports (← frozenReports f)
  | .freeze => do
    modify freeze
    return .done

/-- Carries an operation out. The state is given also where the operation fails. -/
def step (s : Analysis) (op : Operation) : EStateM.Result Fault Analysis Answer :=
  (perform op).run s

/-- The state after an operation, whether it fails or not. -/
def after (s : Analysis) (op : Operation) : Analysis :=
  match s.step op with
  | .ok _ s | .error _ s => s

/-- Carries operations out one after the other, going on after a failure. -/
def run (s : Analysis) (ops : List Operation) : Analysis :=
  ops.foldl after s

end Analysis

end FrameAudit
