import FrameAudit.Report.Basic

/-! # Ledgers

A ledger holds the reports of one frame in the order of their recording. It is first writable, then
settled, when reports can only be retracted, and at last frozen; it never goes back. A change that
the phase does not admit fails with that phase. -/

namespace FrameAudit

inductive Phase where
  | writable
  | settled
  | frozen
deriving DecidableEq

namespace Phase

def render : Phase → String
  | .writable => "Open"
  | .settled => "Reconciled"
  | .frozen => "Frozen"

end Phase

structure Ledger where
  reports : List Report := []
  phase : Phase := .writable
deriving DecidableEq

namespace Ledger

/-- The ledger holds a report that says the same. -/
def Holds (l : Ledger) (r : Report) : Prop := ∃ old ∈ l.reports, old.Duplicates r

instance (l : Ledger) (r : Report) : Decidable (l.Holds r) := by
  unfold Holds; infer_instance

/-- Records a report, unless one that says the same is there. Tells whether it was recorded. -/
def push (r : Report) (l : Ledger) : Except Phase (Bool × Ledger) :=
  if l.phase = .writable then
    if l.Holds r then .ok (false, l) else .ok (true, { l with reports := l.reports ++ [r] })
  else .error l.phase

/-- Retracts the reports that are not to be kept. Tells how many. -/
def retain (keep : Report → Bool) (l : Ledger) : Except Phase (Nat × Ledger) :=
  if l.phase = .frozen then .error l.phase
  else
    let kept := l.reports.filter keep
    .ok (l.reports.length - kept.length, { l with reports := kept })

/-- Ends the recording of reports. -/
def settle (l : Ledger) : Except Phase (Unit × Ledger) :=
  if l.phase = .writable then .ok ((), { l with phase := .settled }) else .error l.phase

/-- Ends every change. -/
def freeze (l : Ledger) : Ledger := { l with phase := .frozen }

/-- The reports of a frozen ledger. -/
def frozenReports? (l : Ledger) : Option (List Report) :=
  if l.phase = .frozen then some l.reports else none

end Ledger

end FrameAudit
