import FrameAudit.Config.Basic
import FrameAudit.Call
import FrameAudit.Ledger

/-! # Events and faults of an analysis

Events are what an analysis tells about its progress; faults are what is wrong with an operation. -/

namespace FrameAudit

/-- Why an operation cannot be carried out. -/
inductive Fault where
  | unknownFrame (frame : FrameId)
  | frameAborted (frame : FrameId)
  | ledgerSealed (frame : FrameId) (phase : Phase)
  | alreadySettled (frame : FrameId)
  | notFrozen (frame : FrameId)
deriving DecidableEq

namespace Fault

def message : Fault → String
  | .unknownFrame f => "unknown frame " ++ f.render
  | .frameAborted f => "frame " ++ f.render ++ " was aborted after a generator failure"
  | .ledgerSealed f phase =>
    "ledger of frame " ++ f.render ++ " no longer accepts changes (state " ++ phase.render ++ ")"
  | .alreadySettled f => "frame " ++ f.render ++ " has already been reconciled"
  | .notFrozen f => "reports of frame " ++ f.render ++ " are read before the ledger is frozen"

end Fault

inductive Event where
  | entryOpened (frame : FrameId) (signature : Signature)
  | cycleFound (signature : Signature) (frame : FrameId)
  | restored (frame : FrameId) (reports : Nat)
  | opened (frame : FrameId) (signature : Signature)
  /-- The policy did not report an observation. -/
  | declined (kind : ReportKind) (frame : FrameId)
  | duplicateDropped (kind : ReportKind)
  | recorded (report : Report)
  | retracted (reports : Nat) (kind : ReportKind) (frame : FrameId)
  | aborted (frame : FrameId) (error : ErrorValue)
  | finished (frame : FrameId) (result : Ty) (reports : Nat)
  | cached (signature : Signature) (reports : Nat) (partition : Partition)
  | concluded (frames reports : Nat)
deriving DecidableEq

namespace Event

/-- How important an event is. -/
def level : Event → String
  | .declined _ _ | .duplicateDropped _ | .recorded _ => "TRACE"
  | .concluded _ _ => "INFO"
  | _ => "DEBUG"

private def reportCount (n : Nat) : String := toString n ++ " report(s)"

def message : Event → String
  | .entryOpened f s => "entering entry frame " ++ f.render ++ " for " ++ s.render
  | .cycleFound s f => "cycle detected on " ++ s.render ++ ", reusing frame " ++ f.render
  | .restored f n => "frame " ++ f.render ++ " restored from cache with " ++ reportCount n
  | .opened f s => "entering frame " ++ f.render ++ " for " ++ s.render
  | .declined kind f => kind.name ++ " not reported in frame " ++ f.render
  | .duplicateDropped kind => "dropping duplicate " ++ kind.name ++ " report"
  | .recorded r => "recording " ++ r.kind.name ++ " report: " ++ r.render
  | .retracted n kind f =>
    "retracted " ++ toString n ++ " " ++ kind.name ++ " report(s) from frame " ++ f.render
  | .aborted f e => "frame " ++ f.render ++ " aborted: " ++ e.render
  | .finished f t n =>
    "frame " ++ f.render ++ " finished with " ++ t.render ++ ", " ++ reportCount n
  | .cached s n p =>
    "caching " ++ s.render ++ " with " ++ reportCount n ++ " under " ++ p.render
  | .concluded frames n =>
    "analysis finished: " ++ toString frames ++ " frame(s), " ++ reportCount n

def render (e : Event) : String := e.level ++ " " ++ e.message

end Event

end FrameAudit
