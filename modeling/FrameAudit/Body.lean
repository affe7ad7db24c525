import FrameAudit.CallPath

/-! # Bodies of frames

The statements of a body, as far as they matter to reports, and the primitive operations that are
evaluated in it. -/

namespace FrameAudit

/-- What a primitive operation does with its arguments. -/
inductive Intrinsic.Role where
  /-- Reads a field of its first argument. -/
  | fieldAccess (field : String)
  /-- Divides integers; the divisor is the second argument. -/
  | integerDivision
  | other
deriving DecidableEq

/-- A primitive operation. It is `modeled` if inference knows how to evaluate it. -/
structure Intrinsic where
  name : String
  role : Intrinsic.Role
  modeled : Bool
deriving DecidableEq

/-- A statement of the body of a frame. -/
inductive Instruction where
  | raise (position : Position) (expr : String)
  /-- A check that a local variable is defined. -/
  | undefCheck (position : Position) (slot : String)
  | unreachable (position : Position)
  | statement (position : Position)
deriving DecidableEq

namespace Instruction

def isUnreachable : Instruction → Bool
  | .unreachable _ => true
  | _ => false

end Instruction

end FrameAudit
