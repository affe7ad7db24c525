import FrameAudit.Proofs.Analysis.Rooted
import FrameAudit.Proofs.Frame.Coverage

/-! # Analyses that cover others

An analysis covers another one of the same operations if its frames cover those of the other one by
one, the stacks are the same, and the calls that are kept are the same and covered, too. What an
operation observes does not depend on the reports, and what the basic policy finds is found by the
sound policy as well (`Operation.found_within`). -/

namespace FrameAudit

namespace Frames

variable {frames frames' : Frames} {f : FrameId} {r r' c c' : Frame}

/-- The frames of the same calls, each of which covers the other. -/
structure CoveredBy (frames frames' : Frames) : Prop where
  length_eq : frames'.length = frames.length
  exists_of_some : ∀ ⦃f r⦄, frames.get? f = some r →
    ∃ r', frames'.get? f = some r' ∧ r.CoveredBy r'

namespace CoveredBy

theorem nil : CoveredBy [] [] := ⟨rfl, fun _ _ hr => by simp [get?] at hr⟩

theorem of_some (h : frames.CoveredBy frames') (hr' : frames'.get? f = some r') :
    ∃ r, frames.get? f = some r ∧ r.CoveredBy r' := by
  have hlt : f.index < frames.length := h.length_eq ▸ index_lt_length hr'
  have hr : frames.get? f = some frames[f.index] := List.getElem?_eq_getElem hlt
  obtain ⟨r'', hr'', hcov⟩ := h.exists_of_some hr
  obtain rfl := Option.some.inj (hr'.symm.trans hr'')
  exact ⟨_, hr, hcov⟩

theorem eq_none (h : frames.CoveredBy frames') (hr : frames.get? f = none) :
    frames'.get? f = none := by
  cases hr' : frames'.get? f with
  | none => rfl
  | some r' =>
    obtain ⟨r, hr'', -⟩ := h.of_some hr'
    cases hr.symm.trans hr''

theorem toExtends (h : frames.CoveredBy frames') : frames.Extends frames' := by
  intro f r hr
  obtain ⟨r', hr', hcov⟩ := h.exists_of_some hr
  exact ⟨r', hr', hcov.sameCall⟩

theorem update (h : frames.CoveredBy frames') {change change' : Frame → Frame}
    (hr : frames.get? f = some r) (hr' : frames'.get? f = some r')
    (hcov : (change r).CoveredBy (change' r')) :
    (frames.update f change).CoveredBy (frames'.update f change') := by
  refine ⟨by simp [h.length_eq], fun g q hq => ?_⟩
  rcases get?_update_cases hr hq with ⟨rfl, rfl⟩ | ⟨hne, hq⟩
  · exact ⟨_, get?_update_self hr' _, hcov⟩
  · obtain ⟨q', hq', hcov'⟩ := h.exists_of_some hq
    exact ⟨q', (get?_update_of_ne hne _).trans hq', hcov'⟩

theorem concat (h : frames.CoveredBy frames') (hcov : c.CoveredBy c') :
    CoveredBy (frames ++ [c]) (frames' ++ [c']) := by
  refine ⟨by simp [h.length_eq], fun g q hq => ?_⟩
  rcases get?_concat hq with ⟨hg, rfl⟩ | hq
  · obtain ⟨i⟩ := g
    obtain rfl : i = frames.length := hg
    rw [← h.length_eq]
    exact ⟨c', get?_concat_length .., hcov⟩
  · obtain ⟨q', hq', hcov'⟩ := h.exists_of_some hq
    exact ⟨q', get?_append_of_some hq' _, hcov'⟩

theorem callerPath_eq (h : frames.CoveredBy frames') (hl : Linked frames) (hl' : Linked frames')
    (hr : frames.get? f = some r) : frames'.callerPath f = frames.callerPath f :=
  h.toExtends.callerPath_eq hl hl' hr

/-- The calls of frames that cover each other do, too. -/
theorem callOf (h : frames.CoveredBy frames') (hl : Linked frames) (hl' : Linked frames')
    (hroot : frames.Rooted) (hr : frames.get? f = some r) (hr' : frames'.get? f = some r') :
    (frames.callOf f r).CoveredBy (frames'.callOf f r') := by
  obtain ⟨_, hr'', hcov⟩ := h.exists_of_some hr
  obtain rfl := Option.some.inj (hr'.symm.trans hr'')
  refine ⟨hcov.result, fun ρ hρ => ?_⟩
  obtain ⟨g, q, hq, hgf, own, hown, rfl⟩ := hl.mem_subtreeReports.1 hρ
  obtain ⟨q', hq', hcov'⟩ := h.exists_of_some hq
  have hdepth : r.depth ≤ q.depth := by
    rcases hgf with rfl | hb
    · exact Nat.le_of_eq (congrArg Frame.depth (Option.some.inj (hr.symm.trans hq)))
    · obtain ⟨-, r'', hr'', hlt⟩ := hb.lt hl hq
      rw [Option.some.inj (hr.symm.trans hr'')]
      exact Nat.le_of_lt hlt
  have hlength := (hroot hq own hown).length_gt hl hq
  refine (hcov'.reports own hown).below (Nat.lt_of_le_of_lt hdepth hlength) fun σ hσ => ?_
  refine hl'.mem_subtreeReports.2 ⟨g, q', hq', ?_, σ, hσ, by rw [hcov.sameCall.depth]⟩
  exact hgf.imp_right (h.toExtends.beneath_iff hl hl' hq).2

theorem observing?_eq (h : frames.CoveredBy frames') (op : Operation) :
    op.observing? frames' = op.observing? frames := by
  cases op with
  | dispatchCall f position argTypes call =>
    cases hc : call.callee with
    | none => simp only [Operation.observing?, hc]
    | some callee =>
      simp only [Operation.observing?, hc]
      cases hr : frames.get? callee with
      | none => rw [h.eq_none hr]
      | some r =>
        obtain ⟨r', hr', hcov⟩ := h.exists_of_some hr
        rw [hr', Option.map_some, Option.map_some, hcov.result]
  | _ => rfl

end CoveredBy

end Frames

namespace Operation

/-- The operation opens, observes, aborts or finishes a frame. Condition types are canonical. -/
def Analyzes : Operation → Prop
  | .enterEntry _ | .enterCall _ _ | .abortFrame _ _ _ | .resolveCall _ _ _
  | .queryReturnType _ _ _ | .dispatchCall _ _ _ _ | .readGlobal _ _ _ _ _ | .evaluateRaise _ _ _
  | .evaluateIntrinsic _ _ _ _ _ | .finishFrame _ _ _ => True
  | .evaluateCondition _ _ observed => observed.Canonical
  | .publishResult _ _ | .askSignature _ | .askResult _ | .askPhase _ | .askReports _
  | .freeze => False

instance : DecidablePred Analyzes
  | .evaluateCondition _ _ observed => inferInstanceAs (Decidable observed.Canonical)
  | .enterEntry _ | .enterCall _ _ | .abortFrame _ _ _ | .resolveCall _ _ _
  | .queryReturnType _ _ _ | .dispatchCall _ _ _ _ | .readGlobal _ _ _ _ _ | .evaluateRaise _ _ _
  | .evaluateIntrinsic _ _ _ _ _ | .finishFrame _ _ _ => inferInstanceAs (Decidable True)
  | .publishResult _ _ | .askSignature _ | .askResult _ | .askPhase _ | .askReports _
  | .freeze => inferInstanceAs (Decidable False)

variable {op : Operation} {frames : Frames} {f : FrameId} {position : Position}
  {os : List Observation} {view : FrameView} {d : Finding}

private theorem found_within_singleton {o : Observation} (hc : o.Canonical)
    (h : [o].findSome? (Strictness.basic.judge view) = some d) :
    ∃ d', [o].findSome? (Strictness.sound.judge view) = some d' ∧ d.Within d' := by
  have hd : Strictness.basic.judge view o = some d := by
    cases hj : Strictness.basic.judge view o <;> simp_all
  obtain ⟨d', hd', hwithin⟩ := Strictness.judge_within hc hd
  exact ⟨d', by simp [hd'], hwithin⟩

/-- What the basic policy finds when an operation observes, the sound policy finds. Of a modelled
intrinsic, which may make two observations, both policies think alike. -/
theorem found_within (hop : op.Analyzes) (h : op.observing? frames = some (f, position, os))
    (hd : os.findSome? (Strictness.basic.judge view) = some d) :
    ∃ d', os.findSome? (Strictness.sound.judge view) = some d' ∧ d.Within d' := by
  cases op with
  | evaluateIntrinsic _ _ intrinsic argTypes observed =>
    cases h
    split at hd
    next hm =>
      refine ⟨d, ?_, .same d⟩
      rw [if_pos hm, ← hd]
      generalize intrinsic.role = role
      fun_cases Intrinsic.Role.observations role argTypes <;> rfl
    next hm =>
      rw [if_neg hm]
      exact found_within_singleton trivial hd
  | dispatchCall _ _ _ call =>
    cases hc : call.callee with
    | none =>
      simp only [observing?, hc] at h
      cases h
      exact found_within_singleton trivial hd
    | some callee =>
      simp only [observing?, hc, Option.map_eq_some_iff] at h
      obtain ⟨r, -, h⟩ := h
      cases h
      exact found_within_singleton trivial hd
  | evaluateCondition _ _ observed =>
    cases h
    exact found_within_singleton hop hd
  | resolveCall | queryReturnType | readGlobal | evaluateRaise =>
    cases h
    exact found_within_singleton trivial hd
  | _ => cases h

end Operation

namespace Analysis

variable {b s : Analysis} {op : Operation} {f : FrameId} {r : Frame} {position : Position}
  {os : List Observation} {signature : Signature} {site : CallSite}

/-- An operation that only observes changes a frame that takes reports, and no other. -/
theorem WellFormed.after_observing (h : WellFormed s)
    (hop : op.observing? s.frames = some (f, position, os)) :
    (∃ r events, s.frames.get? f = some r ∧ r.ledger.phase = .writable ∧ s.after op = { s with
      frames := s.frames.update f
        (Frame.observedFirst s.strictness (s.frames.callerPath f) position os)
      events }) ∨
    (∀ r, s.frames.get? f = some r → r.ledger.phase ≠ .writable) ∧
      ∃ events, s.after op = { s with events } := by
  by_cases hwritable : ∃ r, s.frames.get? f = some r ∧ r.ledger.phase = .writable
  · obtain ⟨r, hr, hw⟩ := hwritable
    have href : s.refusal? op = none := by
      rw [refusal?_observing hop, Frames.refusal?_eq_none]
      exact ⟨r, hr, h.live hr hw, by simp [sealedFault?, hw]⟩
    obtain ⟨answer, events, hstep⟩ := step_observing hop href
    exact .inl ⟨r, events, hr, hw, after_ok hstep⟩
  · refine .inr ⟨fun r hr hw => hwritable ⟨r, hr, hw⟩, ?_⟩
    cases href : s.refusal? op with
    | some fault => exact after_refused href
    | none =>
      obtain ⟨answer, events, hstep⟩ := step_observing hop href
      rw [refusal?_observing hop, Frames.refusal?_eq_none] at href
      obtain ⟨r, hr, -, hsealed⟩ := href
      have hj : os.findSome? (s.strictness.judge r.view) = none := by
        have hw : r.ledger.phase ≠ .writable := fun hw => hwritable ⟨r, hr, hw⟩
        simpa [sealedFault?, hw] using hsealed
      rw [Frame.update_observedFirst_none hr hj] at hstep
      exact ⟨events, after_ok hstep⟩

/-- A call that names an unknown callee is refused. -/
theorem after_dispatchCall_unknown {argTypes : List Ty} {call : ResolvedCall}
    (h : (Operation.dispatchCall f position argTypes call).observing? s.frames = none) :
    ∃ events, s.after (.dispatchCall f position argTypes call) = { s with events } := by
  cases hc : call.callee with
  | none => simp [Operation.observing?, hc] at h
  | some callee =>
    have hr : s.frames.get? callee = none := by simpa [Operation.observing?, hc] using h
    have href : s.refusal? (.dispatchCall f position argTypes call) =
        some (.unknownFrame callee) := by
      simp [refusal?, Operation.observing?, Operation.unknownCallee?, hc, hr, Option.filter]
    exact after_refused href

/-- Stack, frames and kept calls of an analysis are covered by those of another one. -/
structure Covers (s b : Analysis) : Prop where
  stack : s.stack = b.stack
  frames : b.frames.CoveredBy s.frames
  cache : ∀ signature, Option.Rel CachedCall.CoveredBy
    (b.cache.get? ⟨b.partition, signature⟩) (s.cache.get? ⟨s.partition, signature⟩)

theorem Covers.freeze (h : s.Covers b) : s.freeze.Covers b.freeze where
  stack := rfl
  frames := by
    refine ⟨by simp [Analysis.freeze, h.frames.length_eq], fun f r hr => ?_⟩
    rw [get?_freeze, Option.map_eq_some_iff] at hr
    obtain ⟨q, hq, rfl⟩ := hr
    obtain ⟨q', hq', hcov⟩ := h.frames.exists_of_some hq
    exact ⟨q'.frozen, by rw [get?_freeze, hq']; rfl, hcov.frozen⟩
  cache := h.cache

end Analysis

end FrameAudit
