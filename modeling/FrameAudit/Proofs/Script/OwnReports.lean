import FrameAudit.Proofs.Analysis.Step
import FrameAudit.Proofs.Script.Driver

/-! # The reports of a frame's own behaviour

`Script.ownReports` says what a behaviour records in its own frame, as seen from that frame: what
the policy reports at each hook and about undefined locals, repetitions apart, and then the uncaught
raises unless a value speaks against them. It depends on the callees only through their results. A
frame with callers holds the same reports with the callers in front. -/

namespace FrameAudit

namespace Hook

/-- What is observed at a hook, given the results of the calls made before. -/
def observations (results : List Ty) (position : Position) : Hook → List Observation
  | .resolveCall call => [.callResolution (call.resolve [])]
  | .queryReturnType argCount => [.returnTypeQuery argCount]
  | .dispatchCall argTypes call =>
    [.explicitDispatch argTypes (call.resolve []) (call.callee.bind (results[·]?))]
  | .readGlobal scope name resolved => [.globalReference scope name resolved]
  | .evaluateCondition observed => [.condition observed]
  | .evaluateRaise thrown => [.raise thrown position]
  | .evaluateIntrinsic op argTypes observed =>
    if op.modeled then op.role.observations argTypes ++ [.builtinResult op argTypes observed]
    else [.unmodeledBuiltin op argTypes]

/-- What a policy of the given strictness reports at a hook: its first finding. -/
def finding? (strictness : Strictness) (view : FrameView) (results : List Ty) (position : Position)
    (hook : Hook) : Option Finding :=
  (hook.observations results position).findSome? (strictness.judge view)

end Hook

/-- The report of a finding at a statement, as seen from its frame. -/
def FrameView.report (view : FrameView) (position : Position) (finding : Finding) : Report :=
  ⟨[⟨view.signature, position⟩], finding⟩

/-- The reports about undefined locals in a body. -/
def undefReports (strictness : Strictness) (view : FrameView) (body : List Instruction) :
    List Report :=
  (undefChecks body).filterMap fun (position, slot, definite) =>
    (strictness.judge view (.undefCheck slot definite)).map (view.report position)

/-- The report about the raises of a body that are not reported as serious, if there are any. -/
def uncaughtReport? (view : FrameView) (body : List Instruction) (reports : List Report) :
    Option Report :=
  match unreportedRaises (Ledger.seriousPositions { reports }) body with
  | [] => none
  | first :: rest => some (view.report first.position (.uncaughtException (first :: rest)))

/-- The reports of a frame with the given ones when it is finished, and a better result is published
if there is one: uncaught raises are reported unless the policy is basic and one of the results is a
value. -/
def completedReports (strictness : Strictness) (view : FrameView) (body : List Instruction)
    (result : Ty) (refined : Option Ty) (reports : List Report) : List Report :=
  if strictness = .sound ∨ result.isBottom ∧ refined.all Ty.isBottom then
    (uncaughtReport? view body reports).toList.foldl Ledger.noted reports
  else reports

namespace Script

variable (script : Script)

/-- The reports at the hooks of a behaviour, given the results of the calls made before. -/
def hookReports (strictness : Strictness) (view : FrameView) :
    List Statement → List Ty → List Report
  | [], _ => []
  | .hook position hook :: rest, results =>
    ((hook.finding? strictness view results position).map (view.report position)).toList ++
      hookReports strictness view rest results
  | .call _ callee :: rest, results =>
    hookReports strictness view rest (results ++ [(script.behaviour callee).result])

/-- The reports of a body before the uncaught raises. -/
def notedReports (strictness : Strictness) (view : FrameView) (statements : List Statement)
    (instructions : List Instruction) : List Report :=
  Ledger.distinct
    (script.hookReports strictness view statements [] ++ undefReports strictness view instructions)

/-- The reports that the behaviour of a signature records in its own frame, as seen from there. -/
def ownReports (strictness : Strictness) (signature : Signature) (isEntry : Bool) : List Report :=
  let view : FrameView := ⟨signature, isEntry⟩
  match script.behaviour signature with
  | .failure position error => [view.report position (.generatorError error)]
  | .body statements result instructions refined =>
    completedReports strictness view instructions result refined
      (script.notedReports strictness view statements instructions)

end Script

/-! ## Hooks as operations -/

namespace Hook

variable {strictness : Strictness} {view : FrameView} {position : Position} {frames : Frames}
  {opened : List FrameId} {results : List Ty}

private theorem getElem?_results
    (h : opened.map (fun g => (frames.get? g).map Frame.result) = results.map some) (k : Nat) :
    (opened[k]?).map (fun g => (frames.get? g).map Frame.result) = (results[k]?).map some := by
  rw [← List.getElem?_map, ← List.getElem?_map, h]

/-- The policy reports at the operation of a hook what it reports at the hook. -/
theorem observing?_operation (hook : Hook) (strictness : Strictness) (view : FrameView)
    (f : FrameId) (position : Position)
    (h : opened.map (fun g => (frames.get? g).map Frame.result) = results.map some) :
    ∃ os, (hook.operation f position opened).observing? frames = some (f, position, os) ∧
      os.findSome? (strictness.judge view) = hook.finding? strictness view results position := by
  cases hook with
  | dispatchCall argTypes call =>
    obtain ⟨resolution, result, callee⟩ := call
    cases callee with
    | none => exact ⟨_, rfl, rfl⟩
    | some k =>
      have hk := getElem?_results h k
      cases ho : opened[k]? with
      | none =>
        have hr : results[k]? = none := by simpa [ho] using hk.symm
        refine ⟨[.explicitDispatch argTypes ⟨resolution, result, none⟩ none], ?_, ?_⟩
        · simp only [operation, Operation.observing?, ScriptedCall.resolve, Option.bind_some, ho]
        · simp [finding?, observations, hr, Strictness.judge, ScriptedCall.resolve]
      | some g =>
        obtain ⟨t, hr, ht⟩ :
            ∃ t, results[k]? = some t ∧ (frames.get? g).map Frame.result = some t := by
          simpa [ho, eq_comm, and_comm] using hk
        obtain ⟨r, hg, rfl⟩ := Option.map_eq_some_iff.1 ht
        refine ⟨[.explicitDispatch argTypes ⟨resolution, result, some g⟩ (some r.result)], ?_, ?_⟩
        · simp only [operation, Operation.observing?, ScriptedCall.resolve, Option.bind_some, ho,
            hg, Option.map_some]
        · simp [finding?, observations, hr, Strictness.judge, ScriptedCall.resolve]
  | _ => exact ⟨_, rfl, rfl⟩

theorem kind_ne_of_mem_observations (hook : Hook) (results : List Ty) (position : Position) :
    ∀ o ∈ hook.observations results position, o.kind ≠ .uncaughtException := by
  have h : (hook.operation ⟨0⟩ position []).observing? [] =
      some (⟨0⟩, position, hook.observations results position) → _ :=
    Operation.kind_ne_of_observing
  cases hook with
  | dispatchCall argTypes call => simp [observations, Observation.kind]
  | _ => exact h rfl

theorem kind_ne_of_finding? {hook : Hook} {finding : Finding}
    (h : hook.finding? strictness view results position = some finding) :
    finding.kind ≠ .uncaughtException := by
  obtain ⟨o, ho, hj⟩ := List.exists_of_findSome?_eq_some h
  rw [Strictness.kind_of_judge hj]
  exact kind_ne_of_mem_observations hook results position o ho

end Hook

/-! ## What the own reports are like -/

section

variable {strictness : Strictness} {view : FrameView} {body : List Instruction} {ρ : Report}
  {reports : List Report}

/-- The report is about a statement of the frame itself. -/
def FrameView.Owns (view : FrameView) (ρ : Report) : Prop :=
  ∃ position finding, ρ = view.report position finding

theorem mem_undefReports (h : ρ ∈ undefReports strictness view body) :
    view.Owns ρ ∧ ρ.kind = .localUndefVar := by
  obtain ⟨⟨position, slot, definite⟩, -, h⟩ := List.mem_filterMap.1 h
  obtain ⟨finding, hj, rfl⟩ := Option.map_eq_some_iff.1 h
  exact ⟨⟨position, finding, rfl⟩, Strictness.kind_of_judge hj⟩

/-- What holds of the reports so far and of the uncaught raises holds of the reports in the end. -/
theorem mem_completedReports {result : Ty} {refined : Option Ty}
    (h : ρ ∈ completedReports strictness view body result refined reports) :
    ρ ∈ reports ∨ uncaughtReport? view body reports = some ρ := by
  unfold completedReports at h
  split at h
  · exact (Ledger.mem_foldl_noted_subset h).imp_right Option.mem_toList.1
  · exact .inl h

theorem uncaughtReport?_eq_some (h : uncaughtReport? view body reports = some ρ) :
    view.Owns ρ ∧ ρ.kind = .uncaughtException := by
  unfold uncaughtReport? at h
  split at h
  · cases h
  · cases h
    exact ⟨⟨_, _, rfl⟩, rfl⟩

namespace Script

variable {script : Script}

theorem mem_hookReports {statements : List Statement} {results : List Ty}
    (h : ρ ∈ script.hookReports strictness view statements results) :
    view.Owns ρ ∧ ρ.kind ≠ .uncaughtException := by
  induction statements generalizing results with
  | nil => simp [hookReports] at h
  | cons statement rest ih =>
    cases statement with
    | hook position hook =>
      rcases List.mem_append.1 h with h | h
      · obtain ⟨finding, hf, rfl⟩ := Option.map_eq_some_iff.1 (Option.mem_toList.1 h)
        exact ⟨⟨position, finding, rfl⟩, Hook.kind_ne_of_finding? hf⟩
      · exact ih h
    | call position callee => exact ih h

theorem mem_notedReports {statements : List Statement}
    (h : ρ ∈ script.notedReports strictness view statements body) :
    view.Owns ρ ∧ ρ.kind ≠ .uncaughtException := by
  rcases Ledger.mem_foldl_noted_subset h with h | h
  · exact absurd h List.not_mem_nil
  · rcases List.mem_append.1 h with h | h
    · exact mem_hookReports h
    · obtain ⟨howns, hkind⟩ := mem_undefReports h
      exact ⟨howns, by simp [hkind]⟩

theorem owns_of_mem_ownReports {signature : Signature} {isEntry : Bool}
    (h : ρ ∈ script.ownReports strictness signature isEntry) :
    FrameView.Owns ⟨signature, isEntry⟩ ρ := by
  unfold ownReports at h
  split at h
  next position error _ => exact ⟨position, _, List.mem_singleton.1 h⟩
  next statements result instructions refined _ =>
    rcases mem_completedReports h with h | h
    · exact (mem_notedReports h).1
    · exact (uncaughtReport?_eq_some h).1

theorem distinct_ownReports (script : Script) (strictness : Strictness) (signature : Signature)
    (isEntry : Bool) : Ledger.Distinct (script.ownReports strictness signature isEntry) := by
  unfold ownReports
  split
  · exact List.pairwise_singleton _ _
  · have hdistinct := fun reports => Ledger.Distinct.foldl_noted .nil reports
    unfold completedReports
    split
    · exact (hdistinct _).foldl_noted _
    · exact hdistinct _

end Script

end

/-! ## The frame of a behaviour -/

namespace Frame

variable {strictness : Strictness} {r : Frame} {callers : CallPath} {reports : List Report}

/-- The frame with the given reports, which are as seen from it. -/
def holding (r : Frame) (callers : CallPath) (reports : List Report) : Frame :=
  { r with ledger.reports := reports.map (·.rebase callers) }

/-- The frame in the end, with the given reports as seen from it. -/
def settledWith (r : Frame) (callers : CallPath) (reports : List Report) (result : Ty) : Frame :=
  { r with result, ledger := ⟨reports.map (·.rebase callers), .settled⟩ }

theorem note_holding (r : Frame) (callers : CallPath) (reports : List Report) (ρ : Report) :
    (r.holding callers reports).note (ρ.rebase callers) =
      r.holding callers (Ledger.noted reports ρ) := by
  simp only [note, holding, Ledger.noted_map_rebase]

theorem observed_holding (position : Position) (observation : Observation) :
    (r.holding callers reports).observed strictness callers position observation =
      r.holding callers (((strictness.judge r.view observation).map
        (r.view.report position)).toList.foldl Ledger.noted reports) := by
  have hview : (r.holding callers reports).view = r.view := rfl
  rw [observed, hview]
  cases strictness.judge r.view observation with
  | none => rfl
  | some finding => exact note_holding r callers reports (r.view.report position finding)

theorem undefinedObserved_holding (body : List Instruction) :
    (r.holding callers reports).undefinedObserved strictness callers body =
      r.holding callers ((undefReports strictness r.view body).foldl Ledger.noted reports) := by
  unfold undefinedObserved undefReports
  induction undefChecks body generalizing reports with
  | nil => rfl
  | cons check checks ih =>
    obtain ⟨position, slot, definite⟩ := check
    simp only [List.foldl_cons, observed_holding, ih, List.filterMap_cons]
    cases strictness.judge r.view (.undefCheck slot definite) <;> rfl

theorem seriousPositions_holding (r : Frame) (callers : CallPath) (reports : List Report) :
    (r.holding callers reports).ledger.seriousPositions = Ledger.seriousPositions { reports } := by
  simp only [Ledger.seriousPositions, holding, List.filterMap_map]
  rfl

theorem retracted_holding (h : ∀ ρ ∈ reports, ρ.kind ≠ .uncaughtException) (result : Ty) :
    (r.holding callers reports).retracted strictness result = r.holding callers reports := by
  have hfilter : (reports.map (·.rebase callers)).filter (fun ρ => ρ.kind ≠ .uncaughtException) =
      reports.map (·.rebase callers) := by
    refine List.filter_eq_self.2 fun ρ hρ => ?_
    obtain ⟨own, hown, rfl⟩ := List.mem_map.1 hρ
    exact decide_eq_true (h own hown)
  unfold retracted
  split
  · rw [withoutUncaught, holding, hfilter]
  · rfl

/-- A frame without uncaught raises, when it is finished. -/
theorem finished_holding (h : ∀ ρ ∈ reports, ρ.kind ≠ .uncaughtException) (result : Ty)
    (body : List Instruction) :
    (r.holding callers reports).finished strictness callers result body =
      r.settledWith callers (completedReports strictness r.view body result none
        ((undefReports strictness r.view body).foldl Ledger.noted reports)) result := by
  let noted := (undefReports strictness r.view body).foldl Ledger.noted reports
  have hnoted : ∀ ρ ∈ noted, ρ.kind ≠ .uncaughtException := by
    intro ρ hρ
    rcases Ledger.mem_foldl_noted_subset hρ with hρ | hρ
    · exact h ρ hρ
    · simp [(mem_undefReports hρ).2]
  let r' : Frame := { r with result }
  have hundef : undefinedObserved strictness callers body (r'.holding callers reports) =
      r'.holding callers noted := undefinedObserved_holding body
  have huncaught : (r'.holding callers noted).uncaughtObserved strictness callers result body =
      r'.holding callers (completedReports strictness r.view body result none noted) := by
    unfold uncaughtObserved completedReports uncaughtReport?
    rw [seriousPositions_holding, retracted_holding hnoted]
    cases unreportedRaises (Ledger.seriousPositions { reports := noted }) body with
    | nil => simp
    | cons first rest =>
      simp only [observed_holding, Strictness.judge, Option.all_none, and_true]
      by_cases hs : strictness = .sound ∨ result.isBottom = true
      · rw [if_pos hs, if_pos hs]
        rfl
      · rw [if_neg hs, if_neg hs]
        rfl
  change closed (uncaughtObserved strictness callers result body
    (undefinedObserved strictness callers body (r'.holding callers reports))) = _
  rw [hundef, huncaught]
  rfl

theorem filter_completedReports (h : ∀ ρ ∈ reports, ρ.kind ≠ .uncaughtException)
    (view : FrameView) (body : List Instruction) (result : Ty) (refined : Option Ty) :
    (completedReports strictness view body result refined reports).filter
      (fun ρ => ρ.kind ≠ .uncaughtException) = reports := by
  have hsame : reports.filter (fun ρ => ρ.kind ≠ .uncaughtException) = reports :=
    List.filter_eq_self.2 fun ρ hρ => decide_eq_true (h ρ hρ)
  unfold completedReports
  split
  · cases hu : uncaughtReport? view body reports with
    | none => exact hsame
    | some ρ =>
      have hρ := (uncaughtReport?_eq_some hu).2
      change (Ledger.noted reports ρ).filter _ = _
      unfold Ledger.noted
      split
      · exact hsame
      · rw [List.filter_append, hsame, List.filter_cons_of_neg (by simp [hρ]), List.filter_nil,
          List.append_nil]
  · exact hsame

/-- A better result for a frame that was just finished. -/
theorem published_settledWith (h : ∀ ρ ∈ reports, ρ.kind ≠ .uncaughtException) (result : Ty)
    (refined : Ty) (body : List Instruction) :
    (r.settledWith callers (completedReports strictness r.view body result none reports)
        result).published strictness refined =
      r.settledWith callers
        (completedReports strictness r.view body result (some refined) reports) refined := by
  unfold published retracted
  by_cases hc : (strictness = .basic && !refined.isBottom) = true
  · have hfinal :
        completedReports strictness r.view body result (some refined) reports = reports := by
      simp only [Bool.and_eq_true, decide_eq_true_eq, Bool.not_eq_true'] at hc
      simp [completedReports, hc]
    have hfilter : ((completedReports strictness r.view body result none reports).map
        (·.rebase callers)).filter (fun ρ => ρ.kind ≠ .uncaughtException) =
        reports.map (·.rebase callers) := by
      rw [List.filter_map]
      exact congrArg _ (filter_completedReports h r.view body result none)
    rw [if_pos hc, hfinal, withoutUncaught, settledWith, hfilter]
    rfl
  · have hfinal : completedReports strictness r.view body result (some refined) reports =
        completedReports strictness r.view body result none reports := by
      cases strictness with
      | basic =>
        have hb : refined.isBottom = true := by simpa using hc
        simp [completedReports, hb]
      | sound => simp [completedReports]
    rw [if_neg hc, hfinal]
    rfl

/-- The frame of a body when it is finished. -/
theorem finished_hookReports (script : Script) (strictness : Strictness) (r : Frame)
    (callers : CallPath) (statements : List Statement) (result : Ty) (body : List Instruction) :
    (r.holding callers ((script.hookReports strictness r.view statements []).foldl Ledger.noted
      [])).finished strictness callers result body =
      r.settledWith callers (completedReports strictness r.view body result none
        (script.notedReports strictness r.view statements body)) result := by
  rw [finished_holding, Script.notedReports, Ledger.distinct, List.foldl_append]
  intro ρ hρ
  rcases Ledger.mem_foldl_noted_subset hρ with hρ | hρ
  · exact absurd hρ List.not_mem_nil
  · exact (Script.mem_hookReports hρ).2

/-- The frame of a body when it is finished and a better result is published. -/
theorem published_hookReports (script : Script) (strictness : Strictness) (r : Frame)
    (callers : CallPath) (statements : List Statement) (result refined : Ty)
    (body : List Instruction) :
    ((r.holding callers ((script.hookReports strictness r.view statements []).foldl Ledger.noted
      [])).finished strictness callers result body).published strictness refined =
      r.settledWith callers (completedReports strictness r.view body result (some refined)
        (script.notedReports strictness r.view statements body)) refined := by
  rw [finished_hookReports]
  exact published_settledWith (fun ρ hρ => (Script.mem_notedReports hρ).2) result refined body

end Frame

end FrameAudit
