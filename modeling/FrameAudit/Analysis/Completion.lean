import FrameAudit.Analysis.State

/-! # Completing frames

When a frame is finished, its undefined locals and uncaught raises are reported, it takes no further
reports, and its call is kept in the cache together with everything beneath it. A later, better
result can be published for it, which under the basic policy retracts uncaught raises. -/

namespace FrameAudit

/-- The checks for undefined locals in a body. A check is definite if the next instruction is
unreachable. -/
def undefChecks : List Instruction → List (Position × String × Bool)
  | [] => []
  | .undefCheck position slot :: rest =>
    (position, slot, rest.head?.any Instruction.isUnreachable) :: undefChecks rest
  | _ :: rest => undefChecks rest

/-- The raises of a body at other positions than the reported ones. -/
def unreportedRaises (reported : List Position) (body : List Instruction) : List RaiseSite :=
  body.filterMap fun
    | .raise position expr => if position ∈ reported then none else some ⟨position, expr⟩
    | _ => none

namespace Ledger

/-- The positions of the raises that are reported as serious. -/
def seriousPositions (l : Ledger) : List Position :=
  l.reports.filterMap fun report =>
    match report.finding with
    | .seriousException _ position => some position
    | _ => none

end Ledger

namespace Analysis

/-- Keeps a frame in the cache, with the reports of all frames beneath it. Entry frames and aborted
frames are not kept. -/
def keep (f : FrameId) : AnalysisM Unit := do
  let r ← frame f
  if r.isEntry || r.aborted then return ()
  else
    let s ← get
    let reports := s.frames.subtreeReports f r.depth
    emit (.cached r.signature reports.length s.partition)
    modify fun s =>
      { s with cache := s.cache.insert ⟨s.partition, r.signature⟩ ⟨r.result, reports⟩ }

/-- Keeps the finished ones among the callers of a frame anew, innermost first. The others are kept
when they finish. -/
def keepCallers (f : FrameId) : AnalysisM Unit := do
  ((← get).frames.callSites f).forM fun site => do
    if (← frame site.caller).ledger.phase = .settled then keep site.caller

/-- Under the basic policy a frame that returns a value has no uncaught raise. Tells how many
reports that retracts. -/
def retractUncaught (f : FrameId) (result : Ty) : AnalysisM Nat := do
  if (← get).strictness = .basic && !result.isBottom then retract f .uncaughtException
  else return 0

/-- Observes the checks for undefined locals in a body. -/
def observeUndefined (f : FrameId) (body : List Instruction) : AnalysisM Unit :=
  (undefChecks body).forM fun (position, slot, definite) =>
    discard (observe f position (.undefCheck slot definite))

/-- Observes the raises of a body that are not reported as serious, at the first of them. -/
def observeUncaught (f : FrameId) (result : Ty) (body : List Instruction) : AnalysisM Unit := do
  let raises := unreportedRaises (← frame f).ledger.seriousPositions body
  discard (retractUncaught f result)
  match raises with
  | [] => return ()
  | first :: _ => discard (observe f first.position (.uncaught raises result))

/-- Ends the analysis of a frame. -/
def closeFrame (f : FrameId) (result : Ty) : AnalysisM Unit := do
  settle f
  eraseStack f
  emit (.finished f result (← frame f).ledger.reports.length)

/-- Finishes a live frame that takes reports. -/
def finishWritable (f : FrameId) (result : Ty) (body : List Instruction) : AnalysisM Unit := do
  updateFrame f fun r => { r with result }
  observeUndefined f body
  observeUncaught f result body
  closeFrame f result
  keep f

/-- Finishes a frame with its result and its body. -/
def finishFrame (f : FrameId) (result : Ty) (body : List Instruction) :
    AnalysisM (List Instruction) := do
  let r ← liveFrame f
  if r.ledger.phase = .writable then
    finishWritable f result body
    return body
  else throw (.alreadySettled f)

/-- Keeps a finished frame anew, and its finished callers too if `removed` reports were retracted
from it. -/
def keepAnew (f : FrameId) (removed : Nat) : AnalysisM Unit := do
  keep f
  if 0 < removed then keepCallers f

/-- Publishes a better result for a live frame in the given phase. -/
def publishUnfrozen (f : FrameId) (result : Ty) (phase : Phase) : AnalysisM Nat := do
  let removed ← retractUncaught f result
  updateFrame f fun r => { r with result }
  if phase = .settled then keepAnew f removed
  return removed

/-- Publishes a better result for a frame. Tells how many reports that retracts. -/
def publishResult (f : FrameId) (result : Ty) : AnalysisM Nat := do
  let phase := (← liveFrame f).ledger.phase
  if phase = .frozen then throw (.ledgerSealed f phase)
  else publishUnfrozen f result phase

end Analysis

end FrameAudit
