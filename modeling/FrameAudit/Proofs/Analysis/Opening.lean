import FrameAudit.Proofs.Analysis.Completing

/-! # Opening frames, as functions of the state

Entering a call answers with a cycle, fills the new frame from the cache, or leaves it to be
analysed; which of them depends on the stack and the cache alone. -/

namespace FrameAudit

namespace Frames

variable {frames : Frames} {c : Frame} {site : CallSite}

/-- The callers of a frame that is called from `site` in the frame `c`. -/
def callersAt (frames : Frames) (site : CallSite) (c : Frame) : CallPath :=
  frames.callerPath site.caller ++ [⟨c.signature, site.position⟩]

theorem Linked.callerPath_opened (h : Linked frames) (hc : frames.get? site.caller = some c)
    {r : Frame} (hs : r.site = some site) (he : r.isEntry = false) (hd : r.depth = c.depth + 1) :
    callerPath (frames ++ [r]) ⟨frames.length⟩ = frames.callersAt site c := by
  have hnew : Linked (frames ++ [r]) := h.concat_callee hc hs he hd
  rw [hnew.callerPath_callee (get?_concat_length ..) hs (get?_append_of_some hc _),
    Extends.callerPath_eq (extends_append frames [r]) h hnew hc, callersAt]

end Frames

namespace Analysis

open Frames (get?_update_self update_congr update_update update_id concat_update)

variable {s : Analysis} {f : FrameId} {r c : Frame} {signature : Signature} {site : CallSite}

theorem run_enterEntry (s : Analysis) (signature : Signature) : ∃ events,
    (enterEntry signature).run s = .ok s.nextFrame { s with
      frames := s.frames ++ [.entry signature]
      stack := s.stack ++ [s.nextFrame]
      events } := ⟨_, rfl⟩

theorem onStack?_eq_none : s.onStack? signature = none ↔
    ∀ f ∈ s.stack, ∀ r, s.frames.get? f = some r → r.signature ≠ signature := by
  rw [onStack?, List.findSome?_eq_none_iff]
  refine forall₂_congr fun f _ => ?_
  cases s.frames.get? f with
  | none => simp
  | some r => simp

theorem run_enterCall_cycle (hc : s.frames.get? site.caller = some c) (ha : c.aborted = false)
    (hon : s.onStack? signature = some (f, r)) : ∃ events,
      (enterCall signature site).run s = .ok (.cycle f r.result) { s with events } := by
  apply Exists.intro
  rw [enterCall, run_bind_ok (run_liveFrame hc ha), enterFrom, run_bind_ok (EStateM.run_get s)]
  simp only [hon]
  rfl

theorem run_enterCall_analyze (hc : s.frames.get? site.caller = some c) (ha : c.aborted = false)
    (hon : s.onStack? signature = none) (hk : s.cache.get? ⟨s.partition, signature⟩ = none) :
    ∃ events, (enterCall signature site).run s = .ok (.analyze s.nextFrame) { s with
      frames := s.frames ++ [.callee signature site (c.depth + 1)]
      stack := s.stack ++ [s.nextFrame]
      events } := by
  apply Exists.intro
  rw [enterCall, run_bind_ok (run_liveFrame hc ha), enterFrom, run_bind_ok (EStateM.run_get s)]
  simp only [hon, run_bind_ok (run_openFrame _), hk]
  rfl

/-! ## Filling a frame from the cache -/

/-- Reports are noted one after the other. -/
private theorem run_forM_record (callers : CallPath) (reports : List Report)
    (hr : s.frames.get? f = some r) (hw : r.ledger.phase = .writable) : ∃ events,
      (reports.forM fun report => discard (record f (report.rebase callers))).run s =
        .ok () { s with
          frames := s.frames.update f fun r => { r with
            ledger.reports := (reports.map (·.rebase callers)).foldl Ledger.noted r.ledger.reports }
          events } := by
  induction reports generalizing s r with
  | nil => exact ⟨s.events, by simp [← Function.id_def, update_id]⟩
  | cons ρ reports ih =>
    obtain ⟨e₁, h₁⟩ := run_record hr hw (ρ.rebase callers)
    obtain ⟨e₂, h₂⟩ := ih (s := { s with
      frames := s.frames.update f (Frame.note (ρ.rebase callers)), events := e₁ })
      (get?_update_self hr _) hw
    rw [update_update] at h₂
    refine ⟨e₂, ?_⟩
    rw [List.forM, EStateM.run_bind, run_discard, h₁]
    exact h₂

theorem run_restore (call : CachedCall) (hr : s.frames.get? f = some r)
    (hw : r.ledger.phase = .writable) : ∃ events, (restore f call).run s = .ok () { s with
      frames := s.frames.update f (Frame.restored (s.frames.callerPath f) call)
      events } := by
  let fill : Frame → Frame := fun r => { r with ledger.reports :=
    (call.reports.map (·.rebase (s.frames.callerPath f))).foldl Ledger.noted r.ledger.reports }
  obtain ⟨e₁, h₁⟩ := run_forM_record (s.frames.callerPath f) call.reports hr hw
  have h₂ := run_settle (s := { s with frames := s.frames.update f fill, events := e₁ })
    (get?_update_self hr fill) hw
  have h₃ : (updateFrame f fun r => { r with result := call.result }).run { s with
      frames := (s.frames.update f fill).update f Frame.closed, events := e₁ } = .ok () { s with
        frames := s.frames.update f (Frame.restored (s.frames.callerPath f) call)
        events := e₁ } := by
    rw [run_updateFrame, update_update, update_update]
    rfl
  refine ⟨e₁, ?_⟩
  rw [restore, run_bind_ok (EStateM.run_get s)]
  exact (run_bind_ok h₁).trans <| (run_bind_ok h₂).trans h₃

theorem run_enterCall_restored {call : CachedCall} (hl : s.frames.Linked)
    (hc : s.frames.get? site.caller = some c) (ha : c.aborted = false)
    (hon : s.onStack? signature = none) (hk : s.cache.get? ⟨s.partition, signature⟩ = some call) :
    ∃ events, (enterCall signature site).run s = .ok (.cached s.nextFrame call.result) { s with
      frames := s.frames ++ [(Frame.callee signature site (c.depth + 1)).restored
        (s.frames.callersAt site c) call]
      events } := by
  have hcallers := hl.callerPath_opened hc (r := .callee signature site (c.depth + 1)) rfl rfl rfl
  obtain ⟨events, h⟩ := run_restore call (s := { s with
      frames := s.frames ++ [.callee signature site (c.depth + 1)]
      events := s.events ++ [.restored s.nextFrame call.reports.length] })
    (f := s.nextFrame) (Frames.get?_concat_length ..) rfl
  rw [show s.nextFrame = ⟨s.frames.length⟩ from rfl, concat_update, hcallers] at h
  refine ⟨events, ?_⟩
  rw [enterCall, run_bind_ok (run_liveFrame hc ha), enterFrom, run_bind_ok (EStateM.run_get s)]
  simp only [hon, run_bind_ok (run_openFrame _), hk]
  exact (run_bind_ok (run_emit _)).trans <| run_bind_ok h

end Analysis

end FrameAudit
