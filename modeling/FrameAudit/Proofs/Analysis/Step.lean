import FrameAudit.Proofs.Analysis.Refusal
import FrameAudit.Proofs.Policy.Judging

/-! # What an operation can do

`Analysis.Step` lists everything that an operation can do to an analysis, up to the events, and
`Analysis.step_cases` says that the list is complete. Most invariants are proved from it alone. -/

namespace FrameAudit

/-- Operations observe the statement that they are about. -/
theorem Operation.isAt_of_observing {op : Operation} {frames : Frames} {f : FrameId}
    {position : Position} {os : List Observation}
    (h : op.observing? frames = some (f, position, os)) : ∀ o ∈ os, o.IsAt position := by
  have hrole : ∀ (role : Intrinsic.Role) argTypes, ∀ o ∈ role.observations argTypes,
      o.IsAt position := by
    intro role argTypes
    fun_cases Intrinsic.Role.observations role argTypes <;> simp [Observation.IsAt]
  cases op with
  | dispatchCall f' position' argTypes call =>
    cases hc : call.callee with
    | none =>
      simp only [observing?, hc] at h
      cases h
      simp [Observation.IsAt]
    | some callee =>
      simp only [observing?, hc, Option.map_eq_some_iff] at h
      obtain ⟨r, -, h⟩ := h
      cases h
      simp [Observation.IsAt]
  | evaluateIntrinsic f' position' intrinsic argTypes observed =>
    cases h
    split
    · intro o ho
      rcases List.mem_append.1 ho with ho | ho
      · exact hrole _ _ o ho
      · simp only [List.mem_singleton] at ho
        simp [ho, Observation.IsAt]
    · simp [Observation.IsAt]
  | resolveCall | queryReturnType | readGlobal | evaluateCondition | evaluateRaise =>
    cases h
    simp [Observation.IsAt]
  | _ => cases h

/-- Uncaught raises are not observed by operations of their own. -/
theorem Operation.kind_ne_of_observing {op : Operation} {frames : Frames} {f : FrameId}
    {position : Position} {os : List Observation}
    (h : op.observing? frames = some (f, position, os)) :
    ∀ o ∈ os, o.kind ≠ .uncaughtException :=
  fun o ho => (isAt_of_observing h o ho).kind_ne

/-- The frame that an answer says was opened. -/
def Answer.opened? : Answer → Option FrameId
  | .frame f | .entered (.analyze f) | .entered (.cached f _) => some f
  | _ => none

namespace Analysis

variable {s : Analysis} {f : FrameId} {r c : Frame} {op : Operation} {signature : Signature}
  {site : CallSite} {call : CachedCall} {position : Position}

/-- What an operation can do. -/
inductive Step (s : Analysis) : Operation → EStateM.Result Fault Analysis Answer → Prop where
  | failed (op : Operation) (fault : Fault) (events : List Event) :
    Step s op (.error fault { s with events })
  | answered (op : Operation) (answer : Answer) (events : List Event) :
    answer.opened? = none → Step s op (.ok answer { s with events })
  | noted (op : Operation) (answer : Answer) (f : FrameId) (r : Frame) (position : Position)
      (finding : Finding) (events : List Event) : answer.opened? = none →
    s.frames.get? f = some r → r.aborted = false → r.ledger.phase = .writable →
    finding.IsAt position →
    Step s op (.ok answer { s with
      frames := s.frames.update f
        (Frame.note (r.reportAt (s.frames.callerPath f) position finding))
      events })
  | entry (signature : Signature) (events : List Event) :
    Step s (.enterEntry signature) (.ok (.frame s.nextFrame) { s with
      frames := s.frames ++ [.entry signature]
      stack := s.stack ++ [s.nextFrame]
      events })
  | analyze (signature : Signature) (site : CallSite) (c : Frame) (events : List Event) :
    s.frames.get? site.caller = some c → c.aborted = false →
    s.onStack? signature = none → s.cache.get? ⟨s.partition, signature⟩ = none →
    Step s (.enterCall signature site) (.ok (.entered (.analyze s.nextFrame)) { s with
      frames := s.frames ++ [.callee signature site (c.depth + 1)]
      stack := s.stack ++ [s.nextFrame]
      events })
  | restored (signature : Signature) (site : CallSite) (c : Frame) (call : CachedCall)
      (events : List Event) :
    s.frames.get? site.caller = some c → c.aborted = false →
    s.onStack? signature = none → s.cache.get? ⟨s.partition, signature⟩ = some call →
    Step s (.enterCall signature site) (.ok (.entered (.cached s.nextFrame call.result)) { s with
      frames := s.frames ++ [(Frame.callee signature site (c.depth + 1)).restored
        (s.frames.callersAt site c) call]
      events })
  | aborted (f : FrameId) (r : Frame) (position : Position) (error : ErrorValue) (isNew : Bool)
      (events : List Event) :
    s.frames.get? f = some r → r.aborted = false → r.ledger.phase = .writable →
    Step s (.abortFrame f position error) (.ok (.recorded isNew) { s with
      frames := s.frames.update f (Frame.failed (s.frames.callerPath f) position error)
      stack := (s.stack.reverse.erase f).reverse
      events })
  | finished (f : FrameId) (r : Frame) (result : Ty) (body : List Instruction)
      (events : List Event) :
    s.frames.get? f = some r → r.aborted = false → r.ledger.phase = .writable →
    Step s (.finishFrame f result body) (.ok (.body body) { s with
      frames := s.frames.update f
        (Frame.finished s.strictness (s.frames.callerPath f) result body)
      stack := (s.stack.reverse.erase f).reverse
      cache := Frames.keepIn (s.frames.update f
        (Frame.finished s.strictness (s.frames.callerPath f) result body)) s.partition s.cache f
      events })
  | published (f : FrameId) (r : Frame) (result : Ty) (events : List Event) :
    s.frames.get? f = some r → r.aborted = false → r.ledger.phase ≠ .frozen →
    Step s (.publishResult f result) (.ok (.retracted (retractedBy s.strictness result r)) { s with
      frames := s.frames.update f (Frame.published s.strictness result)
      cache := ((s.frames.update f (Frame.published s.strictness result)).keptAnew f
          r.ledger.phase (retractedBy s.strictness result r)).foldl
        (Frames.keepIn (s.frames.update f (Frame.published s.strictness result)) s.partition)
        s.cache
      events })
  | frozen : Step s .freeze (.ok .done s.freeze)

/-- The state that a computation leaves. -/
def leaves {α : Type} : EStateM.Result Fault Analysis α → Analysis
  | .ok _ s | .error _ s => s

theorem after_eq (s : Analysis) (op : Operation) : s.after op = leaves (s.step op) := by
  unfold after
  cases s.step op <;> rfl

theorem get?_freeze (s : Analysis) (f : FrameId) :
    s.freeze.frames.get? f = (s.frames.get? f).map Frame.frozen :=
  List.getElem?_map ..

theorem all_freeze {P : Frame → Prop} (h : s.frames.All fun r => P r.frozen) :
    s.freeze.frames.All P := by
  intro f r hr
  rw [get?_freeze, Option.map_eq_some_iff] at hr
  obtain ⟨r, hr, rfl⟩ := hr
  exact h hr

theorem extends_freeze (s : Analysis) : s.frames.Extends s.freeze.frames :=
  fun f r hr => ⟨r.frozen, by rw [get?_freeze, hr]; rfl, rfl, rfl, rfl, rfl⟩

theorem linked_freeze (hl : s.frames.Linked) : s.freeze.frames.Linked :=
  hl.of_sameCalls (List.length_map ..) s.extends_freeze

namespace Step

variable {res : EStateM.Result Fault Analysis Answer} {slot : Cache.Slot} {call : CachedCall}

theorem config_eq (h : Step s op res) : (leaves res).config = s.config := by
  cases h <;> rfl

/-- What is kept after an operation was kept before, or is the call of one of the settled frames as
they are now. -/
theorem cache_cases (h : Step s op res) (hk : (leaves res).cache.get? slot = some call) :
    s.cache.get? slot = some call ∨ ∃ f r, (leaves res).frames.Keeps f r ∧
      r.ledger.phase = .settled ∧ slot = ⟨s.partition, r.signature⟩ ∧
      call = (leaves res).frames.callOf f r := by
  cases h with
  | finished f r result body _ hr _ _ =>
    rcases Frames.get?_keepIn_cases hk with hk | ⟨r', hr', hslot, hcall⟩
    · exact .inl hk
    · have hphase : r'.ledger.phase = .settled := by
        rw [← Option.some.inj ((Frames.get?_update_self hr _).symm.trans hr'.get?),
          Frame.phase_finished]
      exact .inr ⟨f, r', hr', hphase, hslot, hcall⟩
  | published f r result _ hr _ _ =>
    rcases Frames.get?_foldl_keepIn_cases hk with hk | ⟨g, hg, r', hr', hslot, hcall⟩
    · exact .inl hk
    · refine .inr ⟨g, r', hr', Frames.settled_of_mem_keptAnew hr'.get? ?_ hg, hslot, hcall⟩
      rw [Frames.get?_update_self hr, Option.map_some, Frame.phase_published]
  | _ => exact .inl hk

theorem isSome_cache (h : Step s op res) (hk : (s.cache.get? slot).isSome) :
    ((leaves res).cache.get? slot).isSome := by
  cases h with
  | finished => exact Frames.isSome_get?_keepIn hk
  | published => exact Frames.isSome_get?_foldl_keepIn hk
  | _ => exact hk

end Step

/-! ## The list is complete -/

/-- An operation that only observes and is not refused notes its first finding, if there is one. -/
theorem step_observing {os : List Observation} (h : op.observing? s.frames = some (f, position, os))
    (href : s.refusal? op = none) : ∃ answer events, s.step op = .ok answer { s with
      frames := s.frames.update f
        (Frame.observedFirst s.strictness (s.frames.callerPath f) position os)
      events } := by
  have hsame := perform_observing h
  have hdone : ∀ a s', (observeFirst f position os).run s = .ok a s' →
      ∃ answer, s.step op = .ok answer s' := by
    intro a s' hrun
    rw [SameEffect, hrun] at hsame
    unfold step
    cases hp : (perform op).run s with
    | error e s'' => simp [hp] at hsame
    | ok answer s'' =>
      rw [hp] at hsame
      exact ⟨answer, congrArg _ hsame⟩
  rw [refusal?_observing h, Frames.refusal?_eq_none] at href
  obtain ⟨r, hr, ha, hsealed⟩ := href
  cases hj : os.findSome? (s.strictness.judge r.view) with
  | none =>
    obtain ⟨events, hrun⟩ := run_observeFirst_declined position hr ha hj
    obtain ⟨answer, hstep⟩ := hdone _ _ hrun
    exact ⟨answer, events, by rw [hstep, Frame.update_observedFirst_none hr hj]⟩
  | some finding =>
    have hw : r.ledger.phase = .writable := by simpa [sealedFault?, hj] using hsealed
    obtain ⟨isNew, events, hrun⟩ := run_observeFirst_recorded position hr ha hw hj
    obtain ⟨answer, hstep⟩ := hdone _ _ hrun
    exact ⟨answer, events, by rw [hstep, Frame.update_observedFirst_some hr hj]⟩

/-- The answers of operations that only observe open no frame. -/
private theorem opened?_bind {α : Type} {x : AnalysisM α} {answer : α → Answer}
    (h : ∀ a, (answer a).opened? = none) {a : Answer} {s' : Analysis}
    (hrun : (do return answer (← x)).run s = .ok a s') : a.opened? = none := by
  rw [EStateM.run_bind] at hrun
  cases hx : x.run s with
  | error e s'' =>
    rw [hx] at hrun
    cases hrun
  | ok b s'' =>
    rw [hx] at hrun
    cases hrun
    exact h b

private theorem accepted_observing {os : List Observation}
    (h : op.observing? s.frames = some (f, position, os)) (href : s.refusal? op = none)
    (hans : ∀ a s', s.step op = .ok a s' → a.opened? = none) :
    ∃ answer s', s.step op = .ok answer s' ∧ Step s op (.ok answer s') := by
  obtain ⟨answer, events, hstep⟩ := step_observing h href
  refine ⟨answer, _, hstep, ?_⟩
  rw [refusal?_observing h, Frames.refusal?_eq_none] at href
  obtain ⟨r, hr, ha, hsealed⟩ := href
  cases hj : os.findSome? (s.strictness.judge r.view) with
  | none =>
    rw [Frame.update_observedFirst_none hr hj]
    exact .answered op answer events (hans _ _ hstep)
  | some finding =>
    have hw : r.ledger.phase = .writable := by simpa [sealedFault?, hj] using hsealed
    obtain ⟨o, ho, hjo⟩ := List.exists_of_findSome?_eq_some hj
    have hat := Strictness.isAt_of_judge (Operation.isAt_of_observing h o ho) hjo
    rw [Frame.update_observedFirst_some hr hj]
    exact .noted op answer f r position finding events (hans _ _ hstep) hr ha hw hat

private theorem accepted_enterCall (hl : s.frames.Linked)
    (h : s.refusal? (.enterCall signature site) = none) : ∃ answer s',
      s.step (.enterCall signature site) = .ok answer s' ∧
        Step s (.enterCall signature site) (.ok answer s') := by
  obtain ⟨c, hc, ha, -⟩ := Frames.refusal?_eq_none.1 h
  cases hon : s.onStack? signature with
  | some found =>
    obtain ⟨events, h⟩ := run_enterCall_cycle hc ha hon
    exact ⟨_, _, step_ok rfl h, .answered _ _ events rfl⟩
  | none =>
    cases hk : s.cache.get? ⟨s.partition, signature⟩ with
    | some call =>
      obtain ⟨events, h⟩ := run_enterCall_restored hl hc ha hon hk
      exact ⟨_, _, step_ok rfl h, .restored signature site c call events hc ha hon hk⟩
    | none =>
      obtain ⟨events, h⟩ := run_enterCall_analyze hc ha hon hk
      exact ⟨_, _, step_ok rfl h, .analyze signature site c events hc ha hon hk⟩

/-- A question changes nothing. -/
private theorem accepted_ask {next : Frame → AnalysisM Answer} {check : Frame → Option Fault}
    (hp : perform op = frame f >>= next) (h : s.frames.askRefusal? f check = none)
    (hnext : ∀ r, check r = none → ∃ a, (next r).run s = .ok a s ∧ a.opened? = none) :
    ∃ answer s', s.step op = .ok answer s' ∧ Step s op (.ok answer s') := by
  unfold Frames.askRefusal? at h
  cases hr : s.frames.get? f with
  | none =>
    rw [hr] at h
    cases h
  | some r =>
    rw [hr] at h
    obtain ⟨a, hrun, hans⟩ := hnext r h
    refine ⟨a, s, ?_, .answered op a s.events hans⟩
    rw [step, hp, run_bind_ok (run_frame hr), hrun]

private theorem accepted_dispatchCall {argTypes : List Ty} {call : ResolvedCall}
    (h : s.refusal? (.dispatchCall f position argTypes call) = none) : ∃ answer s',
      s.step (.dispatchCall f position argTypes call) = .ok answer s' ∧
        Step s (.dispatchCall f position argTypes call) (.ok answer s') := by
  have hans : ∀ a s', s.step (.dispatchCall f position argTypes call) = .ok a s' →
      a.opened? = none := fun _ _ h => opened?_bind (fun _ => rfl) h
  cases hc : call.callee with
  | none => exact accepted_observing (by simp only [Operation.observing?, hc]; rfl) h hans
  | some callee =>
    cases hr : s.frames.get? callee with
    | some r => exact accepted_observing (by simp only [Operation.observing?, hc, hr]; rfl) h hans
    | none =>
      simp [refusal?, Operation.observing?, Operation.unknownCallee?, hc, hr, Option.filter] at h

/-- An operation that is not refused succeeds. -/
theorem step_accepted (hl : s.frames.Linked) (h : s.refusal? op = none) :
    ∃ answer s', s.step op = .ok answer s' ∧ Step s op (.ok answer s') := by
  cases op with
  | enterEntry signature =>
    obtain ⟨events, h⟩ := run_enterEntry s signature
    exact ⟨_, _, step_ok rfl h, .entry signature events⟩
  | enterCall signature site => exact accepted_enterCall hl h
  | abortFrame f position error =>
    obtain ⟨r, hr, ha, hw⟩ := Frames.refusal?_eq_none.1 h
    replace hw : r.ledger.phase = .writable := by simpa using hw
    obtain ⟨isNew, events, h⟩ := run_abortFrame position error hr ha hw
    exact ⟨_, _, step_ok rfl h, .aborted f r position error isNew events hr ha hw⟩
  | finishFrame f result body =>
    obtain ⟨r, hr, ha, hw⟩ := Frames.refusal?_eq_none.1 h
    replace hw : r.ledger.phase = .writable := by simpa using hw
    obtain ⟨events, h⟩ := run_finishFrame result body hr ha hw
    exact ⟨_, _, step_ok rfl h, .finished f r result body events hr ha hw⟩
  | publishResult f result =>
    obtain ⟨r, hr, ha, hf⟩ := Frames.refusal?_eq_none.1 h
    replace hf : r.ledger.phase ≠ .frozen := by simpa using hf
    obtain ⟨events, h⟩ := run_publishResult result hl hr ha hf
    exact ⟨_, _, step_ok rfl h, .published f r result events hr ha hf⟩
  | dispatchCall f position argTypes call => exact accepted_dispatchCall h
  | resolveCall | queryReturnType | readGlobal | evaluateCondition | evaluateRaise
  | evaluateIntrinsic => exact accepted_observing rfl h fun _ _ h => opened?_bind (fun _ => rfl) h
  | askSignature f | askResult f | askPhase f =>
    exact accepted_ask rfl h fun r _ => ⟨_, rfl, rfl⟩
  | askReports f =>
    refine accepted_ask (bind_assoc ..) h fun r hf => ⟨.reports r.ledger.reports, ?_, rfl⟩
    replace hf : r.ledger.phase = .frozen := by simpa using hf
    simp only [Ledger.frozenReports?, hf, if_true]
    rfl
  | freeze => exact ⟨_, _, rfl, .frozen⟩

theorem step_cases (hl : s.frames.Linked) (op : Operation) : Step s op (s.step op) := by
  cases href : s.refusal? op with
  | none =>
    obtain ⟨answer, s', hstep, h⟩ := step_accepted hl href
    exact hstep ▸ h
  | some fault =>
    obtain ⟨events, hstep⟩ := step_refused href
    exact hstep ▸ .failed op fault events

/-- The faults of an operation are those that can be told beforehand. -/
theorem step_error_iff (hl : s.frames.Linked) {fault : Fault} :
    (∃ s', s.step op = .error fault s') ↔ s.refusal? op = some fault := by
  constructor
  · rintro ⟨s', hstep⟩
    cases href : s.refusal? op with
    | none =>
      obtain ⟨answer, s'', hok, -⟩ := step_accepted hl href
      cases hstep.symm.trans hok
    | some fault' =>
      obtain ⟨events, herror⟩ := step_refused href
      cases hstep.symm.trans herror
      rfl
  · intro href
    obtain ⟨events, hstep⟩ := step_refused href
    exact ⟨_, hstep⟩

theorem after_ok {answer : Answer} {s' : Analysis} (h : s.step op = .ok answer s') :
    s.after op = s' := by
  rw [after_eq, h]
  rfl

theorem after_refused {fault : Fault} (h : s.refusal? op = some fault) :
    ∃ events, s.after op = { s with events } := by
  obtain ⟨events, hstep⟩ := step_refused h
  exact ⟨events, by rw [after_eq, hstep]; rfl⟩

theorem after_publishResult (result : Ty) (hl : s.frames.Linked) (hr : s.frames.get? f = some r)
    (ha : r.aborted = false) (hf : r.ledger.phase ≠ .frozen) : ∃ events,
      s.after (.publishResult f result) = { s with
        frames := s.frames.update f (Frame.published s.strictness result)
        cache := ((s.frames.update f (Frame.published s.strictness result)).keptAnew f
            r.ledger.phase (retractedBy s.strictness result r)).foldl
          (Frames.keepIn (s.frames.update f (Frame.published s.strictness result)) s.partition)
          s.cache
        events } := by
  obtain ⟨events, h⟩ := run_publishResult result hl hr ha hf
  exact ⟨events, after_ok (step_ok rfl h)⟩

end Analysis

end FrameAudit
