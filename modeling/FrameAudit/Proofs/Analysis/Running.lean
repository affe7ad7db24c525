import FrameAudit.Analysis.Entering
import FrameAudit.Analysis.Observing
import FrameAudit.Proofs.Frame.Changes

/-! # Running the parts of operations

What each part of an operation answers and leaves behind, up to the events: the frame that it is
about is changed by one of the functions of `Frame`. -/

namespace FrameAudit.Analysis

open Frames (get?_update_self update_congr update_update update_id callerPath_update)

variable {s : Analysis} {f : FrameId} {r : Frame}

theorem run_bind_ok {α β : Type} {x : AnalysisM α} {next : α → AnalysisM β} {a : α} {s' : Analysis}
    (h : x.run s = .ok a s') : (x >>= next).run s = (next a).run s' := by
  rw [EStateM.run_bind, h]

theorem run_frame (hr : s.frames.get? f = some r) : (frame f).run s = .ok r s := by
  simp [frame, hr]

theorem run_frame_unknown (hr : s.frames.get? f = none) :
    (frame f).run s = .error (.unknownFrame f) s := by
  simp only [frame, EStateM.run_bind, EStateM.run_get, hr]
  rfl

theorem run_liveFrame (hr : s.frames.get? f = some r) (ha : r.aborted = false) :
    (liveFrame f).run s = .ok r s := by
  simp [liveFrame, run_frame hr, ha]

theorem run_liveFrame_aborted (hr : s.frames.get? f = some r) (ha : r.aborted = true) :
    (liveFrame f).run s = .error (.frameAborted f) s := by
  simp only [liveFrame, EStateM.run_bind, run_frame hr, ha]
  rfl

theorem run_liveFrame_unknown (hr : s.frames.get? f = none) :
    (liveFrame f).run s = .error (.unknownFrame f) s := by
  simp only [liveFrame, EStateM.run_bind, run_frame_unknown hr]

@[simp]
theorem run_emit (event : Event) :
    (emit event).run s = .ok () { s with events := s.events ++ [event] } := rfl

@[simp]
theorem run_updateFrame (change : Frame → Frame) :
    (updateFrame f change).run s = .ok () { s with frames := s.frames.update f change } := rfl

@[simp]
theorem run_openFrame (r : Frame) :
    (openFrame r).run s = .ok () { s with frames := s.frames ++ [r] } := rfl

@[simp]
theorem run_eraseStack :
    (eraseStack f).run s = .ok () { s with stack := (s.stack.reverse.erase f).reverse } := rfl

theorem run_changeLedger {α : Type} {change : Ledger → Except Phase (α × Ledger)} {a : α}
    {ledger : Ledger} (hr : s.frames.get? f = some r) (hc : change r.ledger = .ok (a, ledger)) :
    (changeLedger f change).run s =
      .ok a { s with frames := s.frames.update f fun r => { r with ledger } } := by
  simp only [changeLedger, EStateM.run_bind, run_frame hr, hc]
  rfl

theorem run_changeLedger_sealed {α : Type} {change : Ledger → Except Phase (α × Ledger)}
    {phase : Phase} (hr : s.frames.get? f = some r) (hc : change r.ledger = .error phase) :
    (changeLedger f change).run s = .error (.ledgerSealed f phase) s := by
  simp only [changeLedger, EStateM.run_bind, run_frame hr, hc]
  rfl

theorem run_settle (hr : s.frames.get? f = some r) (hw : r.ledger.phase = .writable) :
    (settle f).run s = .ok () { s with frames := s.frames.update f Frame.closed } := by
  have hc : r.ledger.settle = .ok ((), { r.ledger with phase := .settled }) := by
    simp [Ledger.settle, hw]
  have hsame : s.frames.update f
      (fun r' => { r' with ledger := { r.ledger with phase := .settled } }) =
      s.frames.update f Frame.closed := update_congr hr rfl
  rw [settle, run_changeLedger hr hc, hsame]

/-! ## Recording and observing -/

theorem run_record (hr : s.frames.get? f = some r) (hw : r.ledger.phase = .writable)
    (ρ : Report) : ∃ events, (record f ρ).run s =
      .ok (decide ¬r.ledger.Holds ρ)
        { s with frames := s.frames.update f (Frame.note ρ), events } := by
  have hsame : s.frames.update f (fun r' => { r' with ledger :=
      { r.ledger with reports := Ledger.noted r.ledger.reports ρ } }) =
      s.frames.update f (Frame.note ρ) := update_congr hr rfl
  apply Exists.intro
  rw [record, EStateM.run_bind, run_changeLedger hr (Ledger.push_writable hw ρ), hsame]
  rfl

theorem run_record_sealed (hr : s.frames.get? f = some r) (hw : r.ledger.phase ≠ .writable)
    (ρ : Report) : (record f ρ).run s = .error (.ledgerSealed f r.ledger.phase) s := by
  have hc : r.ledger.push ρ = .error r.ledger.phase := by simp [Ledger.push, hw]
  simp only [record, EStateM.run_bind, run_changeLedger_sealed hr hc]

section Observe

variable (position : Position) {observation : Observation} {finding : Finding}

theorem run_observe_declined (hr : s.frames.get? f = some r) (ha : r.aborted = false)
    (hj : s.strictness.judge r.view observation = none) : ∃ events,
      (observe f position observation).run s = .ok none { s with events } := by
  have hj' : s.config.policy.judge r.view observation = none := hj
  apply Exists.intro
  simp only [observe, EStateM.run_bind, run_liveFrame hr ha, EStateM.run_get, hj']
  rfl

theorem run_observe_recorded (hr : s.frames.get? f = some r) (ha : r.aborted = false)
    (hw : r.ledger.phase = .writable) (hj : s.strictness.judge r.view observation = some finding) :
    ∃ isNew events, (observe f position observation).run s = .ok (some isNew)
      { s with frames := s.frames.update f
                (Frame.note (r.reportAt (s.frames.callerPath f) position finding)), events } := by
  have hj' : s.config.policy.judge r.view observation = some finding := hj
  obtain ⟨events, h⟩ := run_record hr hw (r.reportAt (s.frames.callerPath f) position finding)
  refine ⟨decide ¬r.ledger.Holds (r.reportAt (s.frames.callerPath f) position finding), events, ?_⟩
  rw [Frame.reportAt] at h ⊢
  simp only [observe, EStateM.run_bind, run_liveFrame hr ha, EStateM.run_get, hj', h]
  rfl

theorem run_observe_sealed (hr : s.frames.get? f = some r) (ha : r.aborted = false)
    (hw : r.ledger.phase ≠ .writable) (hj : s.strictness.judge r.view observation = some finding) :
    (observe f position observation).run s = .error (.ledgerSealed f r.ledger.phase) s := by
  have hj' : s.config.policy.judge r.view observation = some finding := hj
  simp only [observe, EStateM.run_bind, run_liveFrame hr ha, EStateM.run_get, hj',
    run_record_sealed hr hw]

theorem run_observe_aborted (hr : s.frames.get? f = some r) (ha : r.aborted = true) :
    (observe f position observation).run s = .error (.frameAborted f) s := by
  simp only [observe, EStateM.run_bind, run_liveFrame_aborted hr ha]

theorem run_observe_unknown (hr : s.frames.get? f = none) :
    (observe f position observation).run s = .error (.unknownFrame f) s := by
  simp only [observe, EStateM.run_bind, run_liveFrame_unknown hr]

variable (observation) in
/-- Observing a frame that takes reports always succeeds. -/
theorem run_observe (hr : s.frames.get? f = some r) (ha : r.aborted = false)
    (hw : r.ledger.phase = .writable) : ∃ answer events,
      (observe f position observation).run s = .ok answer { s with
        frames := s.frames.update f
          (Frame.observed s.strictness (s.frames.callerPath f) position observation),
        events } := by
  cases hj : s.strictness.judge r.view observation with
  | none =>
    obtain ⟨events, h⟩ := run_observe_declined position hr ha hj
    have hsame : s.frames.update f
        (Frame.observed s.strictness (s.frames.callerPath f) position observation) =
        s.frames.update f id :=
      update_congr hr (by simp [Frame.observed, hj])
    exact ⟨none, events, by rw [h, hsame, update_id]⟩
  | some finding =>
    obtain ⟨isNew, events, h⟩ := run_observe_recorded position hr ha hw hj
    have hsame : s.frames.update f
        (Frame.observed s.strictness (s.frames.callerPath f) position observation) =
        s.frames.update f
          (Frame.note (r.reportAt (s.frames.callerPath f) position finding)) :=
      update_congr hr (by simp [Frame.observed, hj])
    exact ⟨some isNew, events, by rw [h, hsame]⟩

end Observe

end FrameAudit.Analysis
