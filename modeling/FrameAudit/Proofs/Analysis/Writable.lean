import FrameAudit.Proofs.Analysis.WellFormed

/-! # Frames that take reports

A frame that takes reports has been analysed so far, not filled from the cache: all its reports are
at its own statements. -/

namespace FrameAudit

namespace Frames

variable {frames : Frames} {f : FrameId} {r c : Frame} {change : Frame → Frame}

/-- The report is at a statement of the frame, and can be reported there. -/
def Owns (frames : Frames) (f : FrameId) (r : Frame) (ρ : Report) : Prop :=
  ∃ position finding, finding.IsAt position ∧
    ρ = r.reportAt (frames.callerPath f) position finding

/-- The frames that take reports hold reports at their own statements only. -/
def WritableOwn (frames : Frames) : Prop :=
  ∀ ⦃f r⦄, frames.get? f = some r → r.ledger.phase = .writable →
    ∀ ρ ∈ r.ledger.reports, frames.Owns f r ρ

theorem Owns.kind_ne {ρ : Report} (h : frames.Owns f r ρ) : ρ.kind ≠ .uncaughtException := by
  obtain ⟨position, finding, hat, rfl⟩ := h
  exact hat.kind_ne

theorem Owns.kind_ne_localUndefVar {ρ : Report} (h : frames.Owns f r ρ) :
    ρ.kind ≠ .localUndefVar := by
  obtain ⟨position, finding, hat, rfl⟩ := h
  exact hat.kind_ne_localUndefVar

theorem Owns.path_of_serious {ρ : Report} (h : frames.Owns f r ρ) {error : ErrorValue}
    {place : Position} (hf : ρ.finding = .seriousException error place) :
    ρ.path = frames.callerPath f ++ [⟨r.signature, place⟩] := by
  obtain ⟨position, finding, hat, rfl⟩ := h
  obtain rfl : finding = .seriousException error place := hf
  obtain rfl : place = position := hat
  rfl

namespace WritableOwn

theorem update (h : frames.WritableOwn) (hr : frames.get? f = some r)
    (hsame : ∀ r : Frame, r.SameCall (change r))
    (hP : (change r).ledger.phase = .writable →
      ∀ ρ ∈ (change r).ledger.reports, frames.Owns f r ρ) :
    (frames.update f change).WritableOwn := by
  intro g r' hr' hw ρ hρ
  rw [Owns, callerPath_update _ _ _ hsame]
  rcases get?_update_cases hr hr' with ⟨rfl, rfl⟩ | ⟨-, hr'⟩
  · obtain ⟨position, finding, hat, rfl⟩ := hP hw ρ hρ
    exact ⟨position, finding, hat, ((hsame r).reportAt_eq ..).symm⟩
  · exact h hr' hw ρ hρ

theorem concat (h : frames.WritableOwn) (hl : Linked frames) (hl' : Linked (frames ++ [c]))
    (hc : c.ledger.phase = .writable → c.ledger.reports = []) :
    WritableOwn (frames ++ [c]) := by
  intro g r hr hw ρ hρ
  rcases get?_concat hr with ⟨-, rfl⟩ | hr
  · simp [hc hw] at hρ
  · rw [Owns, Extends.callerPath_eq (extends_append frames [c]) hl hl' hr]
    exact h hr hw ρ hρ

end WritableOwn

end Frames

namespace Analysis

variable {s : Analysis}

theorem WellFormed.writableOwn_after (h : WellFormed s) (hown : s.frames.WritableOwn)
    (op : Operation) : (s.after op).frames.WritableOwn := by
  have hl := h.linked
  rw [after_eq]
  have hstep := step_cases hl op
  generalize s.step op = res at hstep
  cases hstep with
  | failed | answered => exact hown
  | noted _ _ f r position finding _ _ hr _ hw hat =>
    exact hown.update hr (Frame.sameCall_note _) fun _ =>
      Frame.forall_mem_note (hown hr hw) ⟨position, finding, hat, rfl⟩
  | entry => exact hown.concat hl (hl.concat_entry rfl rfl rfl) fun _ => rfl
  | analyze _ _ c _ hc => exact hown.concat hl (hl.concat_callee hc rfl rfl rfl) fun _ => rfl
  | restored _ _ c _ _ hc =>
    exact hown.concat hl (hl.concat_callee hc rfl rfl rfl) fun hw => by cases hw
  | aborted f r _ _ _ _ hr _ _ =>
    exact hown.update hr (Frame.sameCall_failed _ _ _) fun hw => by cases hw
  | finished f r _ _ _ hr _ _ =>
    exact hown.update hr (Frame.sameCall_finished _ _ _ _) fun hw => by cases hw
  | published f r _ _ hr _ _ =>
    refine hown.update hr (Frame.sameCall_published _ _) fun hw => ?_
    rw [Frame.phase_published] at hw
    exact Frame.forall_mem_retracted (hown hr hw)
  | frozen =>
    intro f r hr hw
    rw [leaves, get?_freeze, Option.map_eq_some_iff] at hr
    obtain ⟨r, -, rfl⟩ := hr
    cases hw

end Analysis

end FrameAudit
