import FrameAudit.Proofs.Analysis.Hooks
import FrameAudit.Proofs.Cache.Keeping

/-! # Completing frames, as functions of the state

Aborting and finishing a frame, and publishing a result for it, give the state that the functions
on frames and on caches say. They succeed on every frame whose phase admits them. -/

namespace FrameAudit.Analysis

open Frames (get?_update_self update_congr update_update update_id callerPath_update)

variable {s : Analysis} {f : FrameId} {r : Frame}

/-! ## Keeping calls -/

theorem run_keep (hr : s.frames.get? f = some r) : ∃ events, (keep f).run s =
    .ok () { s with cache := s.frames.keepIn s.partition s.cache f, events } := by
  cases hk : r.isEntry || r.aborted with
  | true =>
    have hsame : s.frames.keepIn s.partition s.cache f = s.cache := by
      simp [Frames.keepIn, hr, hk]
    refine ⟨s.events, ?_⟩
    simp only [keep, EStateM.run_bind, run_frame hr, hk, if_true, hsame]
    rfl
  | false =>
    have hinsert : s.frames.keepIn s.partition s.cache f =
        s.cache.insert ⟨s.partition, r.signature⟩ (s.frames.callOf f r) := by
      simp [Frames.keepIn, hr, hk]
    apply Exists.intro
    simp only [keep, EStateM.run_bind, run_frame hr, hk, Bool.false_eq_true, if_false,
      EStateM.run_get, run_emit, hinsert]
    rfl

theorem run_keepCallers (hl : s.frames.Linked) (hr : s.frames.get? f = some r) : ∃ events,
    (keepCallers f).run s = .ok () { s with
      cache := (s.frames.settledCallers f).foldl (s.frames.keepIn s.partition) s.cache
      events } := by
  simp only [keepCallers, EStateM.run_bind, EStateM.run_get, Frames.settledCallers]
  have hcallers : ∀ site ∈ s.frames.callSites f, ∃ c, s.frames.get? site.caller = some c :=
    fun site => hl.caller_of_mem_callSites hr
  -- the frames stay the same all along, so the induction is on the call sites that are left
  generalize s.frames.callSites f = sites at hcallers ⊢
  clear hr
  induction sites generalizing s with
  | nil => exact ⟨s.events, rfl⟩
  | cons site sites ih =>
    obtain ⟨c, hc⟩ := hcallers site List.mem_cons_self
    have hrest := fun site' h => hcallers site' (List.mem_cons_of_mem _ h)
    rw [List.forM, EStateM.run_bind, EStateM.run_bind, run_frame hc]
    by_cases hp : c.ledger.phase = .settled
    · obtain ⟨events, h⟩ := run_keep hc
      obtain ⟨events', h'⟩ := ih (s := { s with
        cache := s.frames.keepIn s.partition s.cache site.caller, events }) hl hrest
      refine ⟨events', ?_⟩
      rw [List.map_cons, List.filter_cons_of_pos (by simp [hc, hp]), List.foldl_cons]
      simp only [hp, if_true, h]
      exact h'
    · obtain ⟨events, h⟩ := ih hl hrest
      refine ⟨events, ?_⟩
      rw [List.map_cons, List.filter_cons_of_neg (by simp [hc, hp])]
      simp only [hp, if_false, EStateM.run_pure, h]

/-! ## Retracting and observing at the end of a frame -/

theorem run_retractUncaught (result : Ty) (hr : s.frames.get? f = some r)
    (hf : r.ledger.phase ≠ .frozen) : ∃ events, (retractUncaught f result).run s =
      .ok (r.ledger.reports.length - (r.retracted s.strictness result).ledger.reports.length)
        { s with frames := s.frames.update f (Frame.retracted s.strictness result), events } := by
  cases hb : s.strictness = .basic && !result.isBottom with
  | false =>
    have hsame : s.frames.update f (Frame.retracted s.strictness result) = s.frames.update f id :=
      update_congr hr (by simp [Frame.retracted, hb])
    refine ⟨s.events, ?_⟩
    simp only [retractUncaught, EStateM.run_bind, EStateM.run_get, hb, Bool.false_eq_true, if_false,
      hsame, update_id, Frame.retracted, Nat.sub_self]
    rfl
  | true =>
    have hc : r.ledger.retain (fun report => report.kind ≠ .uncaughtException) =
        .ok (r.ledger.reports.length - r.withoutUncaught.ledger.reports.length,
          r.withoutUncaught.ledger) := by
      simp [Ledger.retain, hf, Frame.withoutUncaught]
    have hsame : s.frames.update f (fun r' => { r' with ledger := r.withoutUncaught.ledger }) =
        s.frames.update f (Frame.retracted s.strictness result) :=
      update_congr hr (by simp [Frame.retracted, hb, Frame.withoutUncaught])
    have hret : r.retracted s.strictness result = r.withoutUncaught := by
      simp [Frame.retracted, hb]
    simp only [retractUncaught, EStateM.run_bind, EStateM.run_get, hb, if_true, retract,
      run_changeLedger hr hc, hsame, hret]
    split
    · exact ⟨_, rfl⟩
    · exact ⟨_, rfl⟩

theorem run_observeUndefined (body : List Instruction) (hr : s.frames.get? f = some r)
    (ha : r.aborted = false) (hw : r.ledger.phase = .writable) : ∃ events,
      (observeUndefined f body).run s = .ok () { s with
        frames := s.frames.update f
          (Frame.undefinedObserved s.strictness (s.frames.callerPath f) body), events } := by
  unfold observeUndefined Frame.undefinedObserved
  induction undefChecks body generalizing s r with
  | nil => exact ⟨s.events, by simp [← Function.id_def, update_id]⟩
  | cons check checks ih =>
    obtain ⟨position, slot, definite⟩ := check
    obtain ⟨answer, events, h⟩ :=
      run_observe position (.undefCheck slot definite) hr ha hw
    obtain ⟨reports, hobs⟩ := r.observed_eq s.strictness (s.frames.callerPath f) position
      (.undefCheck slot definite)
    obtain ⟨events', h'⟩ := ih (s := { s with
        frames := s.frames.update f (Frame.observed s.strictness (s.frames.callerPath f) position
          (.undefCheck slot definite)), events })
      (get?_update_self hr _) (by rw [hobs]; exact ha) (by rw [hobs]; exact hw)
    refine ⟨events', ?_⟩
    rw [callerPath_update _ _ _ (Frame.sameCall_observed _ _ _ _), update_update] at h'
    rw [List.forM, EStateM.run_bind, run_discard, h]
    exact h'

theorem run_observeUncaught (result : Ty) (body : List Instruction)
    (hr : s.frames.get? f = some r) (ha : r.aborted = false) (hw : r.ledger.phase = .writable) :
    ∃ events, (observeUncaught f result body).run s = .ok () { s with
      frames := s.frames.update f
        (Frame.uncaughtObserved s.strictness (s.frames.callerPath f) result body), events } := by
  obtain ⟨events, h⟩ := run_retractUncaught result hr (by simp [hw])
  obtain ⟨reports, hret⟩ := r.retracted_eq s.strictness result
  simp only [observeUncaught, EStateM.run_bind, run_frame hr, run_discard, h]
  cases hraises : unreportedRaises r.ledger.seriousPositions body with
  | nil =>
    have hsame : s.frames.update f
        (Frame.uncaughtObserved s.strictness (s.frames.callerPath f) result body) =
        s.frames.update f (Frame.retracted s.strictness result) :=
      update_congr hr (by simp [Frame.uncaughtObserved, hraises])
    exact ⟨events, by rw [hsame]; rfl⟩
  | cons first rest =>
    obtain ⟨answer, events', h'⟩ := run_observe first.position
      (.uncaught (first :: rest) result) (s := { s with
        frames := s.frames.update f (Frame.retracted s.strictness result), events })
      (get?_update_self hr _) (by rw [hret]; exact ha) (by rw [hret]; exact hw)
    rw [callerPath_update _ _ _ (Frame.sameCall_retracted _ _), update_update] at h'
    have hsame : s.frames.update f
        (Frame.uncaughtObserved s.strictness (s.frames.callerPath f) result body) =
        s.frames.update f (Frame.observed s.strictness (s.frames.callerPath f) first.position
          (.uncaught (first :: rest) result) ∘ Frame.retracted s.strictness result) :=
      update_congr hr (by simp [Frame.uncaughtObserved, hraises])
    refine ⟨events', ?_⟩
    rw [run_discard, h', hsame]
    rfl

/-! ## The operations -/

theorem run_closeFrame (result : Ty) (hr : s.frames.get? f = some r)
    (hw : r.ledger.phase = .writable) : ∃ events, (closeFrame f result).run s = .ok () { s with
      frames := s.frames.update f Frame.closed
      stack := (s.stack.reverse.erase f).reverse
      events } := by
  apply Exists.intro
  simp only [closeFrame, EStateM.run_bind, run_settle hr hw, run_eraseStack]
  rw [run_frame (get?_update_self hr _)]
  rfl

theorem run_finishWritable (result : Ty) (body : List Instruction)
    (hr : s.frames.get? f = some r) (ha : r.aborted = false) (hw : r.ledger.phase = .writable) :
    ∃ events, (finishWritable f result body).run s = .ok () { s with
        frames := s.frames.update f
          (Frame.finished s.strictness (s.frames.callerPath f) result body)
        stack := (s.stack.reverse.erase f).reverse
        cache := Frames.keepIn (s.frames.update f
          (Frame.finished s.strictness (s.frames.callerPath f) result body)) s.partition s.cache f
        events } := by
  -- the frame stays live and writable up to the end
  obtain ⟨_, hundef⟩ := Frame.undefinedObserved_eq s.strictness (s.frames.callerPath f) body
    { r with result }
  obtain ⟨_, huncaught⟩ := Frame.uncaughtObserved_eq s.strictness (s.frames.callerPath f) result
    body (Frame.undefinedObserved s.strictness (s.frames.callerPath f) body { r with result })
  let s₁ : Analysis := { s with frames := s.frames.update f fun r => { r with result } }
  have hcallers₁ : s₁.frames.callerPath f = s.frames.callerPath f :=
    callerPath_update _ _ _ fun _ => ⟨rfl, rfl, rfl, rfl⟩
  have hr₁ : s₁.frames.get? f = some { r with result } := get?_update_self hr _
  obtain ⟨e₂, h₂⟩ := run_observeUndefined body hr₁ ha hw
  rw [hcallers₁] at h₂
  let s₂ : Analysis := { s₁ with
    frames := s₁.frames.update f (Frame.undefinedObserved s.strictness (s.frames.callerPath f) body)
    events := e₂ }
  have hcallers₂ : s₂.frames.callerPath f = s.frames.callerPath f :=
    (callerPath_update _ _ _ (Frame.sameCall_undefinedObserved _ _ _)).trans hcallers₁
  have hr₂ := get?_update_self hr₁
    (Frame.undefinedObserved s.strictness (s.frames.callerPath f) body)
  obtain ⟨e₃, h₃⟩ := run_observeUncaught (s := s₂) result body hr₂ (by rw [hundef]; exact ha)
    (by rw [hundef]; exact hw)
  rw [hcallers₂] at h₃
  have hr₃ := get?_update_self hr₂
    (Frame.uncaughtObserved s.strictness (s.frames.callerPath f) result body)
  obtain ⟨e₄, h₄⟩ := run_closeFrame (s := { s₂ with
    frames := s₂.frames.update f
      (Frame.uncaughtObserved s.strictness (s.frames.callerPath f) result body)
    events := e₃ }) result hr₃ (by rw [huncaught, hundef]; exact hw)
  have hfinished : ((s₂.frames.update f (Frame.uncaughtObserved s.strictness
      (s.frames.callerPath f) result body)).update f Frame.closed) =
      s.frames.update f (Frame.finished s.strictness (s.frames.callerPath f) result body) := by
    simp only [s₂, s₁, update_update]
    rfl
  rw [hfinished] at h₄
  obtain ⟨e₅, h₅⟩ := run_keep (s := { s with
    frames := s.frames.update f (Frame.finished s.strictness (s.frames.callerPath f) result body)
    stack := (s.stack.reverse.erase f).reverse, events := e₄ }) (get?_update_self hr _)
  refine ⟨e₅, ?_⟩
  exact (run_bind_ok (run_updateFrame _)).trans <| (run_bind_ok h₂).trans <|
    (run_bind_ok h₃).trans <| (run_bind_ok h₄).trans h₅

theorem run_finishFrame (result : Ty) (body : List Instruction) (hr : s.frames.get? f = some r)
    (ha : r.aborted = false) (hw : r.ledger.phase = .writable) : ∃ events,
      (finishFrame f result body).run s = .ok body { s with
        frames := s.frames.update f
          (Frame.finished s.strictness (s.frames.callerPath f) result body)
        stack := (s.stack.reverse.erase f).reverse
        cache := Frames.keepIn (s.frames.update f
          (Frame.finished s.strictness (s.frames.callerPath f) result body)) s.partition s.cache f
        events } := by
  obtain ⟨events, h⟩ := run_finishWritable result body hr ha hw
  refine ⟨events, ?_⟩
  rw [finishFrame, run_bind_ok (run_liveFrame hr ha), if_pos hw]
  exact run_bind_ok h

theorem run_keepAnew (removed : Nat) (hl : s.frames.Linked) (hr : s.frames.get? f = some r)
    (hs : r.ledger.phase = .settled) : ∃ events, (keepAnew f removed).run s = .ok () { s with
      cache := (s.frames.keptAnew f r.ledger.phase removed).foldl
        (s.frames.keepIn s.partition) s.cache
      events } := by
  obtain ⟨e₁, h₁⟩ := run_keep hr
  by_cases hremoved : 0 < removed
  · obtain ⟨e₂, h₂⟩ := run_keepCallers (s := { s with
      cache := s.frames.keepIn s.partition s.cache f, events := e₁ }) hl hr
    refine ⟨e₂, ?_⟩
    rw [keepAnew, run_bind_ok h₁, if_pos hremoved, h₂, Frames.keptAnew, if_pos hs, if_pos hremoved]
    rfl
  · refine ⟨e₁, ?_⟩
    rw [keepAnew, run_bind_ok h₁, if_neg hremoved, Frames.keptAnew, if_pos hs, if_neg hremoved]
    rfl

/-- The number of reports that are retracted when a value is published for a frame. -/
def retractedBy (strictness : Strictness) (result : Ty) (r : Frame) : Nat :=
  r.ledger.reports.length - (r.retracted strictness result).ledger.reports.length

theorem run_publishUnfrozen (result : Ty) (hl : s.frames.Linked)
    (hr : s.frames.get? f = some r) (hf : r.ledger.phase ≠ .frozen) : ∃ events,
      (publishUnfrozen f result r.ledger.phase).run s =
        .ok (retractedBy s.strictness result r) { s with
          frames := s.frames.update f (Frame.published s.strictness result)
          cache := ((s.frames.update f (Frame.published s.strictness result)).keptAnew f
              r.ledger.phase (retractedBy s.strictness result r)).foldl
            (Frames.keepIn (s.frames.update f (Frame.published s.strictness result)) s.partition)
            s.cache
          events } := by
  obtain ⟨e₁, h₁⟩ := run_retractUncaught result hr hf
  have h₂ : (updateFrame f fun r => { r with result }).run { s with
      frames := s.frames.update f (Frame.retracted s.strictness result), events := e₁ } =
      .ok () { s with
        frames := s.frames.update f (Frame.published s.strictness result), events := e₁ } := by
    rw [run_updateFrame, update_update]
    rfl
  by_cases hs : r.ledger.phase = .settled
  · have hphase := r.phase_published s.strictness result
    obtain ⟨e₃, h₃⟩ := run_keepAnew (retractedBy s.strictness result r) (s := { s with
      frames := s.frames.update f (Frame.published s.strictness result), events := e₁ })
      (hl.update f (Frame.sameCall_published _ _)) (get?_update_self hr _) (hphase.trans hs)
    rw [hphase] at h₃
    refine ⟨e₃, ?_⟩
    rw [publishUnfrozen, run_bind_ok h₁, run_bind_ok h₂, if_pos hs]
    exact run_bind_ok h₃
  · refine ⟨e₁, ?_⟩
    rw [publishUnfrozen, run_bind_ok h₁, run_bind_ok h₂, if_neg hs, Frames.keptAnew, if_neg hs]
    rfl

theorem run_publishResult (result : Ty) (hl : s.frames.Linked) (hr : s.frames.get? f = some r)
    (ha : r.aborted = false) (hf : r.ledger.phase ≠ .frozen) : ∃ events,
      (publishResult f result).run s = .ok (retractedBy s.strictness result r) { s with
        frames := s.frames.update f (Frame.published s.strictness result)
        cache := ((s.frames.update f (Frame.published s.strictness result)).keptAnew f
            r.ledger.phase (retractedBy s.strictness result r)).foldl
          (Frames.keepIn (s.frames.update f (Frame.published s.strictness result)) s.partition)
          s.cache
        events } := by
  obtain ⟨events, h⟩ := run_publishUnfrozen result hl hr hf
  refine ⟨events, ?_⟩
  rw [publishResult, run_bind_ok (run_liveFrame hr ha), if_neg hf, h]

/-- What is left to do when the body of a frame could not be generated. -/
theorem run_closeAborted (error : ErrorValue) (hr : s.frames.get? f = some r)
    (hw : r.ledger.phase = .writable) : ∃ events, (closeAborted f error).run s = .ok () { s with
      frames := s.frames.update f fun r => { r.closed with aborted := true, result := .bottom }
      stack := (s.stack.reverse.erase f).reverse
      events } := by
  let mark : Frame → Frame := fun r => { r with aborted := true, result := .bottom }
  have h := run_settle (s := { s with frames := s.frames.update f mark })
    (get?_update_self hr mark) hw
  rw [update_update] at h
  apply Exists.intro
  exact (run_bind_ok (run_updateFrame mark)).trans <| (run_bind_ok h).trans rfl

theorem run_abortFrame (position : Position) (error : ErrorValue) (hr : s.frames.get? f = some r)
    (ha : r.aborted = false) (hw : r.ledger.phase = .writable) : ∃ recorded events,
      (abortFrame f position error).run s = .ok recorded { s with
        frames := s.frames.update f (Frame.failed (s.frames.callerPath f) position error)
        stack := (s.stack.reverse.erase f).reverse
        events } := by
  have hj : s.strictness.judge r.view (.generatorFailure error) = some (.generatorError error) :=
    rfl
  obtain ⟨isNew, e₁, h₁⟩ := run_observe_recorded position hr ha hw hj
  let ρ := r.reportAt (s.frames.callerPath f) position (.generatorError error)
  have h₂ : (observeNew f position (.generatorFailure error)).run s =
      .ok (some isNew == some true)
        { s with frames := s.frames.update f (Frame.note ρ), events := e₁ } := run_bind_ok h₁
  obtain ⟨e₃, h₃⟩ := run_closeAborted error (s := { s with
    frames := s.frames.update f (Frame.note ρ), events := e₁ }) (get?_update_self hr _) hw
  have hfailed : (s.frames.update f (Frame.note ρ)).update f
      (fun r => { r.closed with aborted := true, result := .bottom }) =
      s.frames.update f (Frame.failed (s.frames.callerPath f) position error) := by
    rw [update_update]
    exact update_congr hr rfl
  rw [hfailed] at h₃
  exact ⟨some isNew == some true, e₃, (run_bind_ok h₂).trans (run_bind_ok h₃)⟩

end FrameAudit.Analysis
