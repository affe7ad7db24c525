import FrameAudit.Proofs.Analysis.Opening

/-! # Refused operations

Every operation is refused for what can be seen before it changes anything: a frame is unknown or
aborted, or its ledger is in a phase that does not admit the operation. `Analysis.refusal?` gives
the fault. A refused operation fails with it and leaves all but the events as it is
(`Analysis.step_refused`). -/

namespace FrameAudit

namespace Frames

variable {frames : Frames} {f : FrameId} {check : Frame → Option Fault} {fault : Fault}

/-- The fault of an operation that needs a live frame for which `check` finds no fault. -/
def refusal? (frames : Frames) (f : FrameId) (check : Frame → Option Fault) : Option Fault :=
  match frames.get? f with
  | none => some (.unknownFrame f)
  | some r => if r.aborted then some (.frameAborted f) else check r

theorem refusal?_eq_none : frames.refusal? f check = none ↔
    ∃ r, frames.get? f = some r ∧ r.aborted = false ∧ check r = none := by
  unfold refusal?
  cases frames.get? f with
  | none => simp
  | some r => cases ha : r.aborted <;> simp [ha]

theorem refusal?_eq_some (h : frames.refusal? f check = some fault) :
    (frames.get? f = none ∧ fault = .unknownFrame f) ∨ ∃ r, frames.get? f = some r ∧
      (r.aborted = true ∧ fault = .frameAborted f ∨ r.aborted = false ∧ check r = some fault) := by
  unfold refusal? at h
  cases hr : frames.get? f with
  | none =>
    rw [hr] at h
    exact .inl ⟨rfl, (Option.some.inj h).symm⟩
  | some r =>
    rw [hr] at h
    refine .inr ⟨r, rfl, ?_⟩
    cases ha : r.aborted with
    | true => exact .inl ⟨rfl, by simpa [ha, eq_comm] using h⟩
    | false => exact .inr ⟨rfl, by simpa [ha] using h⟩

/-- The fault of a question that needs a frame for which `check` finds no fault. -/
def askRefusal? (frames : Frames) (f : FrameId) (check : Frame → Option Fault) : Option Fault :=
  match frames.get? f with
  | none => some (.unknownFrame f)
  | some r => check r

end Frames

/-- The callee that a call of a chosen method names, if it has no frame. -/
def Operation.unknownCallee? (frames : Frames) : Operation → Option FrameId
  | .dispatchCall _ _ _ call => call.callee.filter fun callee => (frames.get? callee).isNone
  | _ => none

namespace Analysis

open Frames (refusal?_eq_some)

variable {s s' : Analysis} {f : FrameId} {r : Frame} {op : Operation} {fault : Fault}
  {position : Position} {os : List Observation}

/-- A finding among the observations, where the ledger of the frame takes no reports. -/
def sealedFault? (s : Analysis) (f : FrameId) (os : List Observation) (r : Frame) : Option Fault :=
  if r.ledger.phase = .writable ∨ os.findSome? (s.strictness.judge r.view) = none then none
  else some (.ledgerSealed f r.ledger.phase)

/-- The fault of an operation, as it can be told beforehand. -/
def refusal? (s : Analysis) (op : Operation) : Option Fault :=
  match op with
  | .enterEntry _ | .freeze => none
  | .enterCall _ site => s.frames.refusal? site.caller fun _ => none
  | .abortFrame f _ _ => s.frames.refusal? f fun r =>
      if r.ledger.phase = .writable then none else some (.ledgerSealed f r.ledger.phase)
  | .finishFrame f _ _ => s.frames.refusal? f fun r =>
      if r.ledger.phase = .writable then none else some (.alreadySettled f)
  | .publishResult f _ => s.frames.refusal? f fun r =>
      if r.ledger.phase = .frozen then some (.ledgerSealed f r.ledger.phase) else none
  | .askSignature f | .askResult f | .askPhase f => s.frames.askRefusal? f fun _ => none
  | .askReports f => s.frames.askRefusal? f fun r =>
      if r.ledger.phase = .frozen then none else some (.notFrozen f)
  | op =>
    match op.observing? s.frames with
    | some (f, _, os) => s.frames.refusal? f (s.sealedFault? f os)
    | none => (op.unknownCallee? s.frames).map .unknownFrame

theorem refusal?_observing (h : op.observing? s.frames = some (f, position, os)) :
    s.refusal? op = s.frames.refusal? f (s.sealedFault? f os) := by
  cases op with
  | resolveCall | queryReturnType | readGlobal | evaluateCondition | evaluateRaise
  | evaluateIntrinsic | dispatchCall => simp only [refusal?, h]
  | _ => cases h

/-! ## Failing -/

theorem run_bind_error {α β : Type} {x : AnalysisM α} {next : α → AnalysisM β}
    (h : x.run s = .error fault s') : (x >>= next).run s = .error fault s' := by
  rw [EStateM.run_bind, h]

theorem step_ok {α : Type} {x : AnalysisM α} {answer : α → Answer} {a : α}
    (hp : perform op = do return answer (← x)) (h : x.run s = .ok a s') :
    s.step op = .ok (answer a) s' := by
  rw [step, hp, run_bind_ok h]
  rfl

theorem step_error {α : Type} {x : AnalysisM α} {answer : α → Answer}
    (hp : perform op = do return answer (← x)) (h : x.run s = .error fault s') :
    s.step op = .error fault s' := by
  rw [step, hp, run_bind_error h]

/-- An operation that starts with looking up a live frame. -/
private theorem run_bind_refused {β : Type} {next : Frame → AnalysisM β}
    {check : Frame → Option Fault} (h : s.frames.refusal? f check = some fault)
    (hnext : ∀ r, s.frames.get? f = some r → r.aborted = false → check r = some fault →
      (next r).run s = .error fault s) : (liveFrame f >>= next).run s = .error fault s := by
  rcases refusal?_eq_some h with ⟨hr, rfl⟩ | ⟨r, hr, ⟨ha, rfl⟩ | ⟨ha, hcheck⟩⟩
  · exact run_bind_error (run_liveFrame_unknown hr)
  · exact run_bind_error (run_liveFrame_aborted hr ha)
  · rw [run_bind_ok (run_liveFrame hr ha)]
    exact hnext r hr ha hcheck

private theorem run_frame_refused {β : Type} {next : Frame → AnalysisM β}
    {check : Frame → Option Fault} (h : s.frames.askRefusal? f check = some fault)
    (hnext : ∀ r, check r = some fault → (next r).run s = .error fault s) :
    (frame f >>= next).run s = .error fault s := by
  unfold Frames.askRefusal? at h
  cases hr : s.frames.get? f with
  | none =>
    rw [hr] at h
    cases h
    exact run_bind_error (run_frame_unknown hr)
  | some r =>
    rw [hr] at h
    rw [run_bind_ok (run_frame hr)]
    exact hnext r h

private theorem step_observing_refused (h : op.observing? s.frames = some (f, position, os))
    (href : s.refusal? op = some fault) : ∃ events, s.step op = .error fault { s with events } := by
  have hsame := perform_observing h
  have hne := observing?_ne_nil h
  have hfail : ∀ events, (observeFirst f position os).run s = .error fault { s with events } →
      ∃ events, s.step op = .error fault { s with events } := by
    intro events hrun
    unfold SameEffect at hsame
    rw [hrun] at hsame
    refine ⟨events, ?_⟩
    unfold step
    cases hp : (perform op).run s with
    | ok a s' => simp [hp] at hsame
    | error e' s' =>
      rw [hp] at hsame
      rw [hsame.1, hsame.2]
  rw [refusal?_observing h] at href
  rcases refusal?_eq_some href with ⟨hr, rfl⟩ | ⟨r, hr, ⟨ha, rfl⟩ | ⟨ha, hcheck⟩⟩
  · exact hfail s.events (run_observeFirst_unknown position hr hne)
  · exact hfail s.events (run_observeFirst_aborted position hr ha hne)
  · unfold sealedFault? at hcheck
    split at hcheck
    · cases hcheck
    next hcond =>
      cases hcheck
      obtain ⟨hw, hj⟩ := not_or.1 hcond
      obtain ⟨finding, hj⟩ := Option.ne_none_iff_exists'.1 hj
      obtain ⟨events, hrun⟩ := run_observeFirst_sealed position hr ha hw hj
      exact hfail events hrun

private theorem step_dispatchCall_refused {argTypes : List Ty} {call : ResolvedCall}
    (h : s.refusal? (.dispatchCall f position argTypes call) = some fault) :
    ∃ events, s.step (.dispatchCall f position argTypes call) = .error fault { s with events } := by
  cases hc : call.callee with
  | none => exact step_observing_refused (by simp only [Operation.observing?, hc]; rfl) h
  | some callee =>
    cases hr : s.frames.get? callee with
    | some r => exact step_observing_refused (by simp only [Operation.observing?, hc, hr]; rfl) h
    | none =>
      have hfault : fault = .unknownFrame callee := by
        simpa [refusal?, Operation.observing?, Operation.unknownCallee?, hc, hr, Option.filter,
          eq_comm] using h
      have hrun : (calleeResult call).run s = .error (.unknownFrame callee) s := by
        rw [calleeResult, hc]
        exact run_bind_error (run_frame_unknown hr)
      exact ⟨s.events, hfault ▸ step_error rfl (run_bind_error hrun)⟩

theorem step_refused (h : s.refusal? op = some fault) :
    ∃ events, s.step op = .error fault { s with events } := by
  cases op with
  | enterEntry | freeze => cases h
  | enterCall signature site =>
    exact ⟨s.events, step_error rfl (run_bind_refused h fun _ _ _ hcheck => by cases hcheck)⟩
  | abortFrame f position error =>
    refine ⟨s.events, step_error rfl (run_bind_error (run_bind_error ?_))⟩
    rcases refusal?_eq_some h with ⟨hr, rfl⟩ | ⟨r, hr, ⟨ha, rfl⟩ | ⟨ha, hcheck⟩⟩
    · exact run_observe_unknown position hr
    · exact run_observe_aborted position hr ha
    · obtain ⟨hw, hfault⟩ := Option.ite_none_left_eq_some.1 hcheck
      have hj : s.strictness.judge r.view (.generatorFailure error) =
          some (.generatorError error) := rfl
      rw [← Option.some.inj hfault]
      exact run_observe_sealed position hr ha hw hj
  | finishFrame f result body =>
    refine ⟨s.events, step_error rfl (run_bind_refused h fun r _ _ hcheck => ?_)⟩
    obtain ⟨hw, hfault⟩ := Option.ite_none_left_eq_some.1 hcheck
    rw [← Option.some.inj hfault, if_neg hw]
    rfl
  | publishResult f result =>
    refine ⟨s.events, step_error rfl (run_bind_refused h fun r _ _ hcheck => ?_)⟩
    obtain ⟨hf, hfault⟩ := Option.ite_none_right_eq_some.1 hcheck
    rw [← Option.some.inj hfault]
    simp only [hf, if_true]
    rfl
  | dispatchCall f position argTypes call => exact step_dispatchCall_refused h
  | resolveCall | queryReturnType | readGlobal | evaluateCondition | evaluateRaise
  | evaluateIntrinsic => exact step_observing_refused rfl h
  | askSignature f | askResult f | askPhase f =>
    exact ⟨s.events, run_frame_refused h fun _ hcheck => by cases hcheck⟩
  | askReports f =>
    refine ⟨s.events, step_error rfl (run_frame_refused h fun r hcheck => ?_)⟩
    obtain ⟨hf, hfault⟩ := Option.ite_none_left_eq_some.1 hcheck
    rw [← Option.some.inj hfault, Ledger.frozenReports?, if_neg hf]
    rfl

theorem refusal?_of_step_ok {answer : Answer} (h : s.step op = .ok answer s') :
    s.refusal? op = none := by
  cases href : s.refusal? op with
  | none => rfl
  | some fault =>
    obtain ⟨events, hstep⟩ := step_refused href
    cases hstep.symm.trans h

end Analysis

end FrameAudit
