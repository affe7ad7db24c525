import FrameAudit.Config.Basic
import FrameAudit.Report.Basic

/-! # The cache of results

Finished calls with their results and reports, for each partition and signature. The cache is an
association list with at most one entry for a partition and a signature. -/

namespace FrameAudit

/-- A finished call. The paths of its reports start at the call itself, so that they can be
continued outwards by any caller. -/
structure CachedCall where
  result : Ty
  reports : List Report
deriving DecidableEq

/-- Where a call is kept. -/
structure Cache.Slot where
  partition : Partition
  signature : Signature
deriving DecidableEq

structure Cache where
  entries : List (Cache.Slot × CachedCall) := []
deriving DecidableEq

namespace Cache

def get? (c : Cache) (slot : Slot) : Option CachedCall := c.entries.lookup slot

/-- Overwrites the entry of the slot where it stands, or adds one at the end. -/
def store (slot : Slot) (call : CachedCall) :
    List (Slot × CachedCall) → List (Slot × CachedCall)
  | [] => [(slot, call)]
  | (other, old) :: rest =>
    if slot = other then (slot, call) :: rest else (other, old) :: store slot call rest

def insert (c : Cache) (slot : Slot) (call : CachedCall) : Cache := ⟨store slot call c.entries⟩

def size (c : Cache) : Nat := c.entries.length

def isEmpty (c : Cache) : Bool := c.entries.isEmpty

/-- The number of calls kept in a partition. -/
def partitionSize (c : Cache) (p : Partition) : Nat :=
  (c.entries.filter fun entry => entry.1.partition = p).length

end Cache

end FrameAudit
