/-! # Report policies

A policy decides which observations become reports. The basic policy keeps false alarms low, the
sound policy reports whatever is statically possible, and a fresh policy decides like the one inside
it but shares no cached result with any other: its generation sets it apart. -/

namespace FrameAudit

/-- How a policy decides, whatever wrappers are around it. -/
inductive Strictness where
  | basic
  | sound
deriving DecidableEq

namespace Strictness

def render : Strictness → String
  | .basic => "Basic"
  | .sound => "Sound"

end Strictness

inductive Policy where
  | basic
  | sound
  | fresh (inner : Policy) (generation : Nat)
deriving DecidableEq

namespace Policy

def ofName? : String → Option Policy
  | "basic" => some .basic
  | "sound" => some .sound
  | _ => none

def strictness : Policy → Strictness
  | .basic => .basic
  | .sound => .sound
  | .fresh inner _ => inner.strictness

/-- The place of the constructor among the policies. -/
def rank : Policy → Nat
  | .basic => 0
  | .sound => 1
  | .fresh _ _ => 2

/-- Fresh policies come last and are ordered by what is inside, then by generation. -/
def cmp : Policy → Policy → Ordering
  | .fresh p m, .fresh q n => (p.cmp q).then (compare m n)
  | p, q => compare p.rank q.rank

instance : Ord Policy := ⟨cmp⟩

def render : Policy → String
  | .basic => "Basic"
  | .sound => "Sound"
  | .fresh inner generation =>
    "Fresh \x7b inner: " ++ inner.render ++ ", generation: Generation(" ++
      toString generation ++ ") \x7d"

end Policy

end FrameAudit
