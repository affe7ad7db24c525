import FrameAudit.Analysis.Event
import FrameAudit.Analysis.Frame
import FrameAudit.Cache
import FrameAudit.Policy.Judgement

/-! # The state of an analysis

An analysis has a configuration, the cache it shares, its frames, the stack of the frames that are
being analysed and the events so far. An operation is a computation in `AnalysisM`: it may fail with
a fault, and what it has changed before it fails stays changed. -/

namespace FrameAudit

structure Analysis where
  config : Config
  cache : Cache := {}
  frames : Frames := []
  /-- The frames being analysed, innermost last. -/
  stack : List FrameId := []
  /-- The events so far, latest last. -/
  events : List Event := []
deriving DecidableEq

/-- Operations on an analysis. -/
abbrev AnalysisM := EStateM Fault Analysis

namespace Analysis

variable {α : Type}

def partition (s : Analysis) : Partition := s.config.partition

def strictness (s : Analysis) : Strictness := s.config.policy.strictness

/-- The number of the frame that is opened next. -/
def nextFrame (s : Analysis) : FrameId := ⟨s.frames.length⟩

def emit (event : Event) : AnalysisM Unit :=
  modify fun s => { s with events := s.events ++ [event] }

/-- The frame of the given number. -/
def frame (f : FrameId) : AnalysisM Frame := do
  match (← get).frames.get? f with
  | some r => return r
  | none => throw (.unknownFrame f)

/-- A frame that is not aborted. -/
def liveFrame (f : FrameId) : AnalysisM Frame := do
  let r ← frame f
  if r.aborted then throw (.frameAborted f) else return r

/-- Changes a frame. -/
def updateFrame (f : FrameId) (change : Frame → Frame) : AnalysisM Unit :=
  modify fun s => { s with frames := s.frames.update f change }

/-- Changes the ledger of a frame, if its phase admits the change. -/
def changeLedger (f : FrameId) (change : Ledger → Except Phase (α × Ledger)) : AnalysisM α := do
  let r ← frame f
  match change r.ledger with
  | .ok (a, ledger) => do
    updateFrame f fun r => { r with ledger }
    return a
  | .error phase => throw (.ledgerSealed f phase)

/-- Records a report in a frame. Tells whether it is new. -/
def record (f : FrameId) (report : Report) : AnalysisM Bool := do
  let recorded ← changeLedger f (·.push report)
  emit (if recorded then .recorded report else .duplicateDropped report.kind)
  return recorded

/-- Retracts the reports of one kind from a frame. Tells how many. -/
def retract (f : FrameId) (kind : ReportKind) : AnalysisM Nat := do
  let removed ← changeLedger f (·.retain fun report => report.kind ≠ kind)
  if 0 < removed then emit (.retracted removed kind f)
  return removed

/-- Ends the recording of reports in a frame. -/
def settle (f : FrameId) : AnalysisM Unit := changeLedger f Ledger.settle

/-- Puts a new frame behind the others. -/
def openFrame (r : Frame) : AnalysisM Unit := modify fun s => { s with frames := s.frames ++ [r] }

def pushStack (f : FrameId) : AnalysisM Unit := modify fun s => { s with stack := s.stack ++ [f] }

/-- Takes the innermost occurrence of a frame off the stack. -/
def eraseStack (f : FrameId) : AnalysisM Unit :=
  modify fun s => { s with stack := (s.stack.reverse.erase f).reverse }

/-- Asks the policy about an observation at a statement of a frame and records what it reports.
There is no answer if the policy declines; otherwise it tells whether the report is new. -/
def observe (f : FrameId) (position : Position) (observation : Observation) :
    AnalysisM (Option Bool) := do
  let r ← liveFrame f
  let s ← get
  match s.config.policy.judge r.view observation with
  | none => do
    emit (.declined observation.kind f)
    return none
  | some finding =>
    return some (← record f ⟨s.frames.callerPath f ++ [⟨r.signature, position⟩], finding⟩)

end Analysis

end FrameAudit
