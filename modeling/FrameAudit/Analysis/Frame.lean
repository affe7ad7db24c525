import FrameAudit.Call
import FrameAudit.Ledger
import FrameAudit.Policy.Observation

/-! # Frames

A frame is one call under analysis. The frames of an analysis are a list in the order of their
opening, and a frame that is no entry names the frame it was called from; following these links
outwards gives its callers (`callSites`), hence the call path that leads to it (`callerPath`) and
the frames beneath another one (`isBeneath`). -/

namespace FrameAudit

structure Frame where
  signature : Signature
  /-- Where the frame was called from. -/
  site : Option CallSite
  isEntry : Bool
  /-- The number of its callers. -/
  depth : Nat
  /-- The result so far. -/
  result : Ty := .bottom
  /-- The body could not be generated. -/
  aborted : Bool := false
  ledger : Ledger := {}
deriving DecidableEq

namespace Frame

/-- The frame that an analysis starts with. -/
def entry (signature : Signature) : Frame where
  signature
  site := none
  isEntry := true
  depth := 0

/-- The frame of a callee. -/
def callee (signature : Signature) (site : CallSite) (depth : Nat) : Frame where
  signature
  site := some site
  isEntry := false
  depth

def view (r : Frame) : FrameView := ⟨r.signature, r.isEntry⟩

end Frame

/-- The frames of an analysis in the order of their opening. -/
abbrev Frames := List Frame

namespace Frames

def get? (frames : Frames) (f : FrameId) : Option Frame := frames[f.index]?

/-- The call sites from a frame outwards, innermost first, up to `bound` many. -/
def callSitesWithin (frames : Frames) : Nat → FrameId → List CallSite
  | 0, _ => []
  | bound + 1, f =>
    match frames.get? f >>= Frame.site with
    | some site => site :: callSitesWithin frames bound site.caller
    | none => []

/-- The call sites from a frame out to its entry frame, innermost first. A caller is older than its
callee, so there are no more of them than frames before `f`. -/
def callSites (frames : Frames) (f : FrameId) : List CallSite :=
  frames.callSitesWithin f.index f

/-- The call path of the callers of a frame, outermost first. -/
def callerPath (frames : Frames) (f : FrameId) : CallPath :=
  (frames.callSites f).reverse.filterMap fun site =>
    (frames.get? site.caller).map fun caller => ⟨caller.signature, site.position⟩

/-- The frame `f` was called from `ancestor`, directly or through others. -/
def isBeneath (frames : Frames) (f ancestor : FrameId) : Bool :=
  (frames.callSites f).any fun site => site.caller = ancestor

/-- The frames from `f` on that are `f` itself or beneath it. -/
def subtree (frames : Frames) (f : FrameId) : List Frame :=
  ((frames.drop f.index).zipIdx f.index).filterMap fun (r, i) =>
    if i = f.index ∨ frames.isBeneath ⟨i⟩ f then some r else none

/-- The reports of a frame and of all frames beneath it, as they are seen from that frame. -/
def subtreeReports (frames : Frames) (f : FrameId) (depth : Nat) : List Report :=
  (frames.subtree f).flatMap fun r => r.ledger.reports.map (·.below depth)

/-- Changes one frame. -/
def update (frames : Frames) (f : FrameId) (change : Frame → Frame) : Frames :=
  frames.modify f.index change

end Frames

end FrameAudit
