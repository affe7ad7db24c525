import FrameAudit.Proofs.Script.Driver

/-! # Driving tables with recursion

`BehaviourTable.drive` carries out a table of behaviours in which signatures may call themselves,
directly or through others. It runs the behaviour of a callee when it is told to analyse it, and
goes on with the caller when the callee is restored or already being analysed. A callee that has to
be analysed is not among the signatures that are, so the recursion ends. -/

namespace FrameAudit.BehaviourTable

variable (table : BehaviourTable) {signature callee : Signature} {callers : List Signature}

/-- The number of signatures written down that are not being analysed. -/
def rank (callers : List Signature) : Nat :=
  ((table.map Prod.fst).toFinset.filter (· ∉ callers)).card

theorem rank_lt (hnot : signature ∉ callers) (hcalls : table.Calls signature callee) :
    table.rank (signature :: callers) < table.rank callers := by
  have hwritten : signature ∈ (table.map Prod.fst).toFinset :=
    List.mem_toFinset.2 (List.mem_map_of_mem (mem_of_calls hcalls))
  refine Finset.card_lt_card ⟨fun s hs => ?_, fun hsub => ?_⟩
  · rw [Finset.mem_filter] at hs ⊢
    exact ⟨hs.1, fun hmem => hs.2 (List.mem_cons_of_mem _ hmem)⟩
  · have hback := (Finset.mem_filter.1 (hsub (Finset.mem_filter.2 ⟨hwritten, hnot⟩))).2
    exact hback List.mem_cons_self

/-- Analyses the frame of a call, while its callers are being analysed. -/
def runFrame (callers : List Signature) (signature : Signature) (f : FrameId) : AnalysisM Unit :=
  Script.runBehaviour
    (fun callee g =>
      if _h : signature ∉ callers ∧ table.Calls signature callee then
        runFrame (signature :: callers) callee g
      else return ())
    f (table.get signature)
termination_by table.rank callers
decreasing_by exact table.rank_lt _h.1 _h.2

/-- Analyses entries one after the other. -/
def drive (entries : List Signature) : AnalysisM Unit :=
  entries.forM fun signature => do
    let f ← Analysis.enterEntry signature
    table.runFrame [] signature f

/-- The reports of a run. -/
def runReports (config : Config) (session : Session) (entries : List Signature) : List Report :=
  match (table.drive entries).run (session.analysis config) with
  | .ok _ a | .error _ a => a.conclude.1.reports

/-- The session after a run. -/
def sessionAfter (config : Config) (session : Session) (entries : List Signature) : Session :=
  match (table.drive entries).run (session.analysis config) with
  | .ok _ a | .error _ a => session.afterAnalysis a.conclude.2

/-- The reports of several runs one after the other. -/
def sessionReports (config : Config) : Session → List (List Signature) → List Report
  | _, [] => []
  | session, entries :: later =>
    table.runReports config session entries ++
      sessionReports config (table.sessionAfter config session entries) later

end FrameAudit.BehaviourTable
