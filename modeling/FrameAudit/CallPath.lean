import FrameAudit.Ty.Order

/-! # Call signatures and call paths

A signature is a call of a callee with arguments of given types. A call path leads from the call
that an analysis starts with to one statement: each step is a call with the statement it is at, the
last step being that statement itself. -/

namespace FrameAudit

/-- A call as it is analysed: the callee and the types of its arguments. -/
structure Signature where
  callee : String
  args : List Ty
deriving DecidableEq

namespace Signature

def cmp (a b : Signature) : Ordering :=
  (compare a.callee b.callee).then (Ty.cmpList a.args b.args)

instance : Ord Signature := ⟨cmp⟩

/-- Every argument is a constant or has a data type. -/
def isConcrete (s : Signature) : Bool := s.args.all Ty.isConcrete

def render (s : Signature) : String := s.callee ++ "(" ++ Ty.renderArguments s.args ++ ")"

end Signature

/-- A statement: a file and a line. -/
structure Position where
  file : String
  line : UInt32
deriving DecidableEq

namespace Position

def cmp (a b : Position) : Ordering := (compare a.file b.file).then (compare a.line b.line)

instance : Ord Position := ⟨cmp⟩

def render (p : Position) : String := p.file ++ ":" ++ toString p.line.toNat

end Position

/-- A call and the statement it is at. -/
structure PathStep where
  signature : Signature
  position : Position
deriving DecidableEq

namespace PathStep

def cmp (a b : PathStep) : Ordering :=
  (a.signature.cmp b.signature).then (a.position.cmp b.position)

instance : Ord PathStep := ⟨cmp⟩

def render (s : PathStep) : String := s.signature.render ++ " @ " ++ s.position.render

end PathStep

/-- The steps of a call path, outermost first. -/
abbrev CallPath := List PathStep

namespace CallPath

/-- The statement that the path leads to. -/
def position? (path : CallPath) : Option Position := path.getLast?.map PathStep.position

/-- The path as it is seen from the call at the given depth. -/
def below (path : CallPath) (depth : Nat) : CallPath := path.drop depth

/-- A path seen from a call, continued outwards by the callers of that call. -/
def rebase (path callers : CallPath) : CallPath := callers ++ path

def render (path : CallPath) : String := " -> ".intercalate (path.map PathStep.render)

end CallPath

end FrameAudit
