import FrameAudit.Analysis.Operation

/-! # The outcome of an analysis -/

namespace FrameAudit

/-- What is left of a frame at the end. -/
structure FrameResult where
  signature : Signature
  result : Ty
  reports : List Report
deriving DecidableEq

/-- The frames of an analysis in the order of their opening. -/
structure Outcome where
  frames : List FrameResult
deriving DecidableEq

namespace Outcome

def reports (o : Outcome) : List Report := o.frames.flatMap FrameResult.reports

def frameReports? (o : Outcome) (f : FrameId) : Option (List Report) :=
  o.frames[f.index]?.map FrameResult.reports

/-- The number of reports of a kind. -/
def count (o : Outcome) (kind : ReportKind) : Nat := (o.reports.filter (·.kind = kind)).length

def isEmpty (o : Outcome) : Bool := o.reports.isEmpty

end Outcome

namespace Frame

def summary (r : Frame) : FrameResult := ⟨r.signature, r.result, r.ledger.reports⟩

end Frame

namespace Analysis

def outcome (s : Analysis) : Outcome := ⟨s.frames.map Frame.summary⟩

/-- Freezes every ledger and gives the reports. -/
def conclude (s : Analysis) : Outcome × Analysis :=
  let s := s.freeze
  let o := s.outcome
  (o, { s with events := s.events ++ [.concluded o.frames.length o.reports.length] })

end Analysis

end FrameAudit
