import FrameAudit.Analysis.State

/-! # Entering frames

A call is analysed in a new frame unless its signature is on the stack, which is a cycle, or in the
cache, in which case the new frame is filled from there. -/

namespace FrameAudit

namespace Analysis

/-- Opens an entry frame. -/
def enterEntry (signature : Signature) : AnalysisM FrameId := do
  let f := (← get).nextFrame
  emit (.entryOpened f signature)
  openFrame (.entry signature)
  pushStack f
  return f

/-- The outermost frame on the stack with the given signature. -/
def onStack? (s : Analysis) (signature : Signature) : Option (FrameId × Frame) :=
  s.stack.findSome? fun f =>
    match s.frames.get? f with
    | some r => if r.signature = signature then some (f, r) else none
    | none => none

/-- Fills a new frame from the cache. The callers of the frame are put in front of the paths of the
reports. -/
def restore (f : FrameId) (call : CachedCall) : AnalysisM Unit := do
  let callers := (← get).frames.callerPath f
  call.reports.forM fun report => discard (record f (report.rebase callers))
  settle f
  updateFrame f fun r => { r with result := call.result }

/-- Opens the frame of a callee for a live caller. -/
def enterFrom (signature : Signature) (site : CallSite) (caller : Frame) : AnalysisM Entered := do
  let s ← get
  match s.onStack? signature with
  | some (f, r) => do
    emit (.cycleFound signature f)
    return .cycle f r.result
  | none => do
    let f := s.nextFrame
    openFrame (.callee signature site (caller.depth + 1))
    match s.cache.get? ⟨s.partition, signature⟩ with
    | some call => do
      emit (.restored f call.reports.length)
      restore f call
      return .cached f call.result
    | none => do
      emit (.opened f signature)
      pushStack f
      return .analyze f

/-- Opens the frame of a callee. -/
def enterCall (signature : Signature) (site : CallSite) : AnalysisM Entered := do
  enterFrom signature site (← liveFrame site.caller)

end Analysis

end FrameAudit
