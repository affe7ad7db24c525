import FrameAudit.Policy.Basic

/-! # Configurations

A configuration chooses how inference is tuned and which policy reports. Both also choose the
partition of the cache that an analysis shares. -/

namespace FrameAudit

structure Tuning where
  aggressiveConstantPropagation : Bool := true
  unoptimizeThrowBlocks : Bool := false
deriving DecidableEq

namespace Tuning

def cmp (a b : Tuning) : Ordering :=
  (compare a.aggressiveConstantPropagation b.aggressiveConstantPropagation).then
    (compare a.unoptimizeThrowBlocks b.unoptimizeThrowBlocks)

instance : Ord Tuning := ⟨cmp⟩

/-- Reports rely on a frame of its own for every callee, so calls are never inlined. -/
def inlining (_ : Tuning) : Bool := false

def render (t : Tuning) : String :=
  "TuningOptions \x7b aggressive_constant_propagation: " ++
    toString t.aggressiveConstantPropagation ++
    ", unoptimize_throw_blocks: " ++ toString t.unoptimizeThrowBlocks ++ " \x7d"

end Tuning

/-- A part of the cache, shared by the analyses of equal tuning and policy. -/
structure Partition where
  tuning : Tuning
  policy : Policy
deriving DecidableEq

namespace Partition

def cmp (a b : Partition) : Ordering := (a.tuning.cmp b.tuning).then (a.policy.cmp b.policy)

instance : Ord Partition := ⟨cmp⟩

def render (p : Partition) : String :=
  "CacheKey \x7b tuning: " ++ p.tuning.render ++ ", pass: " ++ p.policy.render ++ " \x7d"

end Partition

structure Config where
  tuning : Tuning := {}
  policy : Policy := .basic
deriving DecidableEq

namespace Config

def partition (c : Config) : Partition := ⟨c.tuning, c.policy⟩

end Config

end FrameAudit
