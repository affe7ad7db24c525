import FrameAudit.Analysis.Completion
import FrameAudit.Analysis.Entering
import FrameAudit.Analysis.Event
import FrameAudit.Analysis.Frame
import FrameAudit.Analysis.Observing
import FrameAudit.Analysis.Operation
import FrameAudit.Analysis.Outcome
import FrameAudit.Analysis.State
import FrameAudit.Body
import FrameAudit.Cache
import FrameAudit.Call
import FrameAudit.CallPath
import FrameAudit.Config.Basic
import FrameAudit.Config.Options
import FrameAudit.Decimal.Shortest
import FrameAudit.Format.Call
import FrameAudit.Format.Report
import FrameAudit.Format.Ty
import FrameAudit.Json.Basic
import FrameAudit.Json.Printer
import FrameAudit.Json.Reader
import FrameAudit.Json.Shape
import FrameAudit.Json.Token
import FrameAudit.Json.Tree
import FrameAudit.Ledger
import FrameAudit.Order.Ascending
import FrameAudit.Policy.Basic
import FrameAudit.Policy.Catalog
import FrameAudit.Policy.Judgement
import FrameAudit.Policy.Observation
import FrameAudit.Proofs.Analysis.Alike
import FrameAudit.Proofs.Analysis.Coherence
import FrameAudit.Proofs.Analysis.Completing
import FrameAudit.Proofs.Analysis.Coverage
import FrameAudit.Proofs.Analysis.History
import FrameAudit.Proofs.Analysis.Hooks
import FrameAudit.Proofs.Analysis.Intrinsics
import FrameAudit.Proofs.Analysis.Nesting
import FrameAudit.Proofs.Analysis.Opening
import FrameAudit.Proofs.Analysis.Refusal
import FrameAudit.Proofs.Analysis.Rooted
import FrameAudit.Proofs.Analysis.Running
import FrameAudit.Proofs.Analysis.Step
import FrameAudit.Proofs.Analysis.WellFormed
import FrameAudit.Proofs.Analysis.Writable
import FrameAudit.Proofs.Cache.FiniteMap
import FrameAudit.Proofs.Cache.Keeping
import FrameAudit.Proofs.Config.Order
import FrameAudit.Proofs.Format.RoundTrip
import FrameAudit.Proofs.Frame.Callers
import FrameAudit.Proofs.Frame.Changes
import FrameAudit.Proofs.Frame.Coverage
import FrameAudit.Proofs.Frame.Subtree
import FrameAudit.Proofs.Json.Lossless
import FrameAudit.Proofs.Json.Members
import FrameAudit.Proofs.Ledger.FirstReports
import FrameAudit.Proofs.Ledger.Noting
import FrameAudit.Proofs.Order.Bytes
import FrameAudit.Proofs.Policy.Judging
import FrameAudit.Proofs.Recursion.Driver
import FrameAudit.Proofs.Recursion.Frames
import FrameAudit.Proofs.Recursion.OwnReports
import FrameAudit.Proofs.Recursion.Refinement
import FrameAudit.Proofs.Recursion.Retention
import FrameAudit.Proofs.Recursion.Walk
import FrameAudit.Proofs.Report.Coverage
import FrameAudit.Proofs.Script.Agreement
import FrameAudit.Proofs.Script.Driver
import FrameAudit.Proofs.Script.Expansion
import FrameAudit.Proofs.Script.OwnReports
import FrameAudit.Proofs.Script.Transparency
import FrameAudit.Proofs.Session.AnalysedOnce
import FrameAudit.Proofs.Session.AtomicFailure
import FrameAudit.Proofs.Session.Finishing
import FrameAudit.Proofs.Session.FrameForest
import FrameAudit.Proofs.Session.FrameHistory
import FrameAudit.Proofs.Session.Generations
import FrameAudit.Proofs.Session.Isolation
import FrameAudit.Proofs.Session.KeptCalls
import FrameAudit.Proofs.Session.KeptSubtrees
import FrameAudit.Proofs.Session.LastResults
import FrameAudit.Proofs.Session.Options
import FrameAudit.Proofs.Session.OwnRetraction
import FrameAudit.Proofs.Session.RaiseAgreement
import FrameAudit.Proofs.Session.Reachable
import FrameAudit.Proofs.Session.Reordering
import FrameAudit.Proofs.Session.Retraction
import FrameAudit.Proofs.Session.RootedPaths
import FrameAudit.Proofs.Session.SoundCoverage
import FrameAudit.Proofs.Session.UncaughtRaises
import FrameAudit.Proofs.Ty.Booleans
import FrameAudit.Proofs.Ty.Join
import FrameAudit.Proofs.Ty.Order
import FrameAudit.Report.Basic
import FrameAudit.Report.Finding
import FrameAudit.Report.Kind
import FrameAudit.Session
import FrameAudit.Ty.Basic
import FrameAudit.Ty.Join
import FrameAudit.Ty.Order
