import FrameAudit.Report.Finding

/-! # Reports

A report is a finding at the end of a call path. -/

namespace FrameAudit

structure Report where
  path : CallPath
  finding : Finding
deriving DecidableEq

namespace Report

def kind (r : Report) : ReportKind := r.finding.kind

/-- Two reports say the same: they agree in kind and path, and also in the finding where the kind
allows several at one path. -/
def Duplicates (a b : Report) : Prop :=
  a.kind = b.kind ∧ a.path = b.path ∧ (a.kind.repeats = true → a.finding = b.finding)

instance (a b : Report) : Decidable (a.Duplicates b) := by
  unfold Duplicates; infer_instance

/-- The report as it is seen from the call at the given depth of its path. -/
def below (r : Report) (depth : Nat) : Report := ⟨r.path.below depth, r.finding⟩

/-- A report seen from a call, with the callers of that call in front. -/
def rebase (r : Report) (callers : CallPath) : Report := ⟨r.path.rebase callers, r.finding⟩

/-- The position, if there is one, and the finding. -/
def render (r : Report) : String :=
  match r.path.position? with
  | some position => position.render ++ ": " ++ r.finding.render
  | none => r.finding.render

end Report

end FrameAudit
