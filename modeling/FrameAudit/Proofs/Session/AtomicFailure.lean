import FrameAudit.Proofs.Session.RootedPaths

/-! # Failing operations

In every analysis of every session, an operation fails exactly for the reasons that it checks before
its first change, and then leaves frames, stack and cache as they are. What an operation does behind
its checks never fails. -/

namespace FrameAudit

/-- The frame is unknown, or it has the property. -/
def Frames.UnknownOr (frames : Frames) (f : FrameId) (P : Frame → Prop) : Prop :=
  ∀ r, frames.get? f = some r → P r

theorem Frames.refusal?_ne_none {frames : Frames} {f : FrameId} {check : Frame → Option Fault} :
    frames.refusal? f check ≠ none ↔
      frames.UnknownOr f fun r => r.aborted = true ∨ check r ≠ none := by
  rw [ne_eq, refusal?_eq_none, UnknownOr]
  simp only [not_exists, not_and, ← Bool.not_eq_true]
  exact forall₂_congr fun r _ => Decidable.or_iff_not_imp_left.symm

namespace Analysis

open Frames (refusal?_ne_none)

variable {s s' : Analysis} {f : FrameId} {r c : Frame} {op : Operation} {position : Position}
  {error : ErrorValue} {os : List Observation} {signature : Signature} {site : CallSite}

/-- The operation fails. -/
def Fails (s : Analysis) (op : Operation) : Prop := ∃ fault s', s.step op = .error fault s'

theorem fails_iff (hl : s.frames.Linked) : s.Fails op ↔ s.refusal? op ≠ none := by
  rw [Fails, Option.ne_none_iff_exists']
  exact exists_congr fun fault => step_error_iff hl

/-- A failing operation leaves all but the events as it is. -/
theorem eq_of_step_error (hl : s.frames.Linked) {fault : Fault} (h : s.step op = .error fault s') :
    s' = { s with events := s'.events } := by
  obtain ⟨events, hstep⟩ := step_refused ((step_error_iff hl).1 ⟨s', h⟩)
  cases hstep.symm.trans h
  rfl

theorem fails_enterCall_iff (hl : s.frames.Linked) : s.Fails (.enterCall signature site) ↔
    s.frames.UnknownOr site.caller fun c => c.aborted = true := by
  rw [fails_iff hl, refusal?, refusal?_ne_none]
  simp

theorem fails_finishFrame_iff (hl : s.frames.Linked) {result : Ty} {body : List Instruction} :
    s.Fails (.finishFrame f result body) ↔
      s.frames.UnknownOr f fun r => r.aborted = true ∨ r.ledger.phase ≠ .writable := by
  rw [fails_iff hl, refusal?, refusal?_ne_none]
  simp

theorem fails_publishResult_iff (hl : s.frames.Linked) {result : Ty} :
    s.Fails (.publishResult f result) ↔
      s.frames.UnknownOr f fun r => r.aborted = true ∨ r.ledger.phase = .frozen := by
  rw [fails_iff hl, refusal?, refusal?_ne_none]
  simp

theorem fails_abortFrame_iff (hl : s.frames.Linked) : s.Fails (.abortFrame f position error) ↔
    s.frames.UnknownOr f fun r => r.aborted = true ∨ r.ledger.phase ≠ .writable := by
  rw [fails_iff hl, refusal?, refusal?_ne_none]
  simp

theorem sealedFault?_ne_none : s.sealedFault? f os r ≠ none ↔
    r.ledger.phase ≠ .writable ∧ ∃ o ∈ os, (s.config.policy.judge r.view o).isSome := by
  have hfound : os.findSome? (s.strictness.judge r.view) ≠ none ↔
      ∃ o ∈ os, (s.strictness.judge r.view o).isSome := by
    simp [List.findSome?_eq_none_iff, Option.isSome_iff_ne_none]
  rw [sealedFault?, ne_eq, ite_eq_left_iff, Classical.not_imp, not_or, ← ne_eq, ← ne_eq, hfound]
  exact and_iff_left (by simp)

theorem fails_observing_iff (hl : s.frames.Linked)
    (h : op.observing? s.frames = some (f, position, os)) : s.Fails op ↔
      s.frames.UnknownOr f fun r => r.aborted = true ∨
        r.ledger.phase ≠ .writable ∧ ∃ o ∈ os, (s.config.policy.judge r.view o).isSome := by
  rw [fails_iff hl, refusal?_observing h, refusal?_ne_none]
  simp only [sealedFault?_ne_none]

theorem fails_of_unknownCallee (hl : s.frames.Linked) {argTypes : List Ty} {call : ResolvedCall}
    {callee : FrameId} (hc : call.callee = some callee) (hr : s.frames.get? callee = none) :
    s.Fails (.dispatchCall f position argTypes call) := by
  rw [fails_iff hl]
  simp [refusal?, Operation.observing?, Operation.unknownCallee?, hc, hr, Option.filter]

/-! ## Behind the checks -/

theorem run_enterFrom (hl : s.frames.Linked) (hc : s.frames.get? site.caller = some c)
    (ha : c.aborted = false) :
    ∃ entered s', (enterFrom signature site c).run s = .ok entered s' := by
  have hsplit : (enterCall signature site).run s = (enterFrom signature site c).run s := by
    rw [enterCall, run_bind_ok (run_liveFrame hc ha)]
  rw [← hsplit]
  cases hon : s.onStack? signature with
  | some found =>
    obtain ⟨events, h⟩ := run_enterCall_cycle hc ha hon
    exact ⟨_, _, h⟩
  | none =>
    cases hk : s.cache.get? ⟨s.partition, signature⟩ with
    | some call =>
      obtain ⟨events, h⟩ := run_enterCall_restored hl hc ha hon hk
      exact ⟨_, _, h⟩
    | none =>
      obtain ⟨events, h⟩ := run_enterCall_analyze hc ha hon hk
      exact ⟨_, _, h⟩

/-- A frame whose failure could be reported takes reports still, so that it can be closed. -/
theorem run_closeAborted_of_reported {recorded : Bool}
    (h : (observeNew f position (.generatorFailure error)).run s = .ok recorded s') :
    ∃ s'', (closeAborted f error).run s' = .ok () s'' := by
  have hfails : ∀ {fault}, (observe f position (.generatorFailure error)).run s = .error fault s →
      ∃ s'', (closeAborted f error).run s' = .ok () s'' := by
    intro fault hobserve
    cases h.symm.trans (run_bind_error hobserve)
  have hj : ∀ r : Frame, s.strictness.judge r.view (.generatorFailure error) =
      some (.generatorError error) := fun _ => rfl
  cases hr : s.frames.get? f with
  | none => exact hfails (run_observe_unknown position hr)
  | some r =>
    cases ha : r.aborted with
    | true => exact hfails (run_observe_aborted position hr ha)
    | false =>
      by_cases hw : r.ledger.phase = .writable
      · obtain ⟨isNew, events, hobserve⟩ := run_observe_recorded position hr ha hw (hj r)
        obtain ⟨_, hclose⟩ := run_closeAborted error (s := { s with
          frames := s.frames.update f
            (Frame.note (r.reportAt (s.frames.callerPath f) position (.generatorError error)))
          events }) (Frames.get?_update_self hr _) hw
        cases h.symm.trans (run_bind_ok hobserve)
        exact ⟨_, hclose⟩
      · exact hfails (run_observe_sealed position hr ha hw (hj r))

end Analysis

namespace Session

open Analysis (RunFrom)

variable {s : Session} {a : Analysis} {config : Config}

/-- In all analyses of all sessions: a failing operation leaves frames, stack and cache as they are;
operations fail exactly if the frame they need is unknown, is aborted or is in a phase that does not
admit them, where an observation is admitted in every phase unless the policy reports it; and what
is left to do after the first change does not fail. -/
theorem failure_exact_and_atomic (hs : s.Reachable) (ha : RunFrom (s.analysis config) a) :
    (∀ op fault a', a.step op = .error fault a' →
      a'.frames = a.frames ∧ a'.stack = a.stack ∧ a'.cache = a.cache) ∧
    (∀ signature site, a.Fails (.enterCall signature site) ↔
      a.frames.UnknownOr site.caller fun c => c.aborted = true) ∧
    (∀ f result body, a.Fails (.finishFrame f result body) ↔
      a.frames.UnknownOr f fun r => r.aborted = true ∨ r.ledger.phase ≠ .writable) ∧
    (∀ f result, a.Fails (.publishResult f result) ↔
      a.frames.UnknownOr f fun r => r.aborted = true ∨ r.ledger.phase = .frozen) ∧
    (∀ f position error, a.Fails (.abortFrame f position error) ↔
      a.frames.UnknownOr f fun r => r.aborted = true ∨ r.ledger.phase ≠ .writable) ∧
    (∀ op f position os, op.observing? a.frames = some (f, position, os) → (a.Fails op ↔
      a.frames.UnknownOr f fun r => r.aborted = true ∨
        r.ledger.phase ≠ .writable ∧ ∃ o ∈ os, (a.config.policy.judge r.view o).isSome)) ∧
    (∀ f position argTypes call callee, call.callee = some callee →
      a.frames.get? callee = none → a.Fails (.dispatchCall f position argTypes call)) ∧
    (∀ signature site c, a.frames.get? site.caller = some c → c.aborted = false →
      ∃ entered a', (Analysis.enterFrom signature site c).run a = .ok entered a') ∧
    (∀ f r, a.frames.get? f = some r → r.aborted = false → r.ledger.phase = .writable →
      ∀ result body, ∃ a', (Analysis.finishWritable f result body).run a = .ok () a') ∧
    (∀ f r, a.frames.get? f = some r → r.aborted = false → r.ledger.phase ≠ .frozen →
      ∀ result, ∃ removed a',
        (Analysis.publishUnfrozen f result r.ledger.phase).run a = .ok removed a') ∧
    (∀ f position error recorded a',
      (Analysis.observeNew f position (.generatorFailure error)).run a = .ok recorded a' →
      ∃ a'', (Analysis.closeAborted f error).run a' = .ok () a'') := by
  have hl := (rooted_invariant.analysis hs ha).wellFormed.linked
  refine ⟨fun op fault a' h => ?_, fun _ _ => Analysis.fails_enterCall_iff hl,
    fun _ _ _ => Analysis.fails_finishFrame_iff hl, fun _ _ => Analysis.fails_publishResult_iff hl,
    fun _ _ _ => Analysis.fails_abortFrame_iff hl, fun _ _ _ _ => Analysis.fails_observing_iff hl,
    fun _ _ _ _ _ => Analysis.fails_of_unknownCallee hl, fun _ _ _ => Analysis.run_enterFrom hl,
    fun f r hr hlive hw result body => ?_, fun f r hr hlive hf result => ?_,
    fun _ _ _ _ _ => Analysis.run_closeAborted_of_reported⟩
  · rw [Analysis.eq_of_step_error hl h]
    exact ⟨rfl, rfl, rfl⟩
  · obtain ⟨events, h⟩ := Analysis.run_finishWritable result body hr hlive hw
    exact ⟨_, h⟩
  · obtain ⟨events, h⟩ := Analysis.run_publishUnfrozen result hl hr hf
    exact ⟨_, _, h⟩

/-- One callee is finished and another is aborted. -/
def settledAndAborted : List Operation :=
  [.enterEntry ⟨"main", []⟩,
   .enterCall ⟨"first", []⟩ ⟨⟨0⟩, ⟨"m.jl", 1⟩⟩,
   .finishFrame ⟨1⟩ .any [],
   .enterCall ⟨"second", []⟩ ⟨⟨0⟩, ⟨"m.jl", 2⟩⟩,
   .abortFrame ⟨2⟩ ⟨"m.jl", 20⟩ ⟨"ErrorException", "no body"⟩]

theorem failure_exact_and_atomic_settledAndAborted :
    let a := (({} : Session).analysis {}).run settledAndAborted
    RunFrom (({} : Session).analysis {}) a ∧
      a.Fails (.evaluateCondition ⟨1⟩ ⟨"m.jl", 10⟩ (.concrete ⟨"Int64", []⟩)) ∧
      ¬a.Fails (.evaluateCondition ⟨1⟩ ⟨"m.jl", 10⟩ .any) ∧
      a.Fails (.enterCall ⟨"third", []⟩ ⟨⟨2⟩, ⟨"m.jl", 21⟩⟩) ∧
      a.Fails (.finishFrame ⟨1⟩ .any []) ∧ ¬a.Fails (.publishResult ⟨1⟩ .any) := by
  have ha : RunFrom (({} : Session).analysis {})
      ((({} : Session).analysis {}).run settledAndAborted) := .run .start fun _ _ _ => trivial
  obtain ⟨-, henter, hfinish, hpublish, -, hobserve, -⟩ := failure_exact_and_atomic .start ha
  refine ⟨ha, (hobserve _ _ _ _ rfl).2 ?_, fun h => ?_, (henter _ _).2 ?_, (hfinish _ _ _).2 ?_,
    fun h => ?_⟩
  · rintro r ⟨⟩
    exact .inr ⟨by decide, _, List.mem_cons_self, rfl⟩
  · have := (hobserve _ _ _ _ rfl).1 h _ rfl
    revert this
    decide
  · rintro r ⟨⟩
    rfl
  · rintro r ⟨⟩
    exact .inr (by decide)
  · have := (hpublish _ _).1 h _ rfl
    revert this
    decide

end Session

end FrameAudit
