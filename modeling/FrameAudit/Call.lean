import FrameAudit.CallPath

/-! # Calls as they are resolved and entered

The records that pass between an analysis and the inference that drives it. -/

namespace FrameAudit

/-- The number of a frame within one analysis. -/
structure FrameId where
  index : Nat
deriving DecidableEq

namespace FrameId

def render (f : FrameId) : String := "#" ++ toString f.index

end FrameId

/-- One case of a call whose arguments are split by the members of their unions: its signature and
the number of methods found for it. -/
structure SplitCase where
  signature : Signature
  candidates : Nat
deriving DecidableEq

/-- How the methods of a call were found. A call that is not split has one case. -/
structure Resolution where
  splits : List SplitCase
deriving DecidableEq

/-- A call that was resolved and inferred, with the frame of the callee if it has one. -/
structure ResolvedCall where
  resolution : Resolution
  result : Ty
  callee : Option FrameId
deriving DecidableEq

/-- Where a frame was entered from. -/
structure CallSite where
  caller : FrameId
  position : Position
deriving DecidableEq

/-- The answer to entering a callee. -/
inductive Entered where
  /-- The callee has to be analysed in a new frame. -/
  | analyze (frame : FrameId)
  /-- The new frame was filled from the cache. -/
  | cached (frame : FrameId) (result : Ty)
  /-- The callee is being analysed already, in a frame whose result so far is given. -/
  | cycle (frame : FrameId) (result : Ty)
deriving DecidableEq

namespace Entered

def frame : Entered → FrameId
  | .analyze f | .cached f _ | .cycle f _ => f

end Entered

end FrameAudit
