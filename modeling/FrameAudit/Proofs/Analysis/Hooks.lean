import FrameAudit.Analysis.Operation
import FrameAudit.Proofs.Analysis.Running

/-! # Operations that observe

Most operations only observe a frame: each makes some observations at one statement, in order, and
the first that the policy reports is recorded (`Analysis.observeFirst`). -/

namespace FrameAudit

/-- What is observed about the arguments of a modelled intrinsic. -/
def Intrinsic.Role.observations : Intrinsic.Role → List Ty → List Observation
  | .fieldAccess field, object :: _ => [.fieldAccess object field]
  | .integerDivision, _ :: divisor :: _ => [.division divisor]
  | _, _ => []

/-- The frame, the statement and the observations of an operation that only observes. Calls of a
chosen method ask the frame of the callee for its result. -/
def Operation.observing? (frames : Frames) :
    Operation → Option (FrameId × Position × List Observation)
  | .resolveCall f position call => some (f, position, [.callResolution call])
  | .queryReturnType f position argCount => some (f, position, [.returnTypeQuery argCount])
  | .dispatchCall f position argTypes call =>
    match call.callee with
    | none => some (f, position, [.explicitDispatch argTypes call none])
    | some callee => (frames.get? callee).map fun r =>
        (f, position, [.explicitDispatch argTypes call (some r.result)])
  | .readGlobal f position scope name resolved =>
    some (f, position, [.globalReference scope name resolved])
  | .evaluateCondition f position observed => some (f, position, [.condition observed])
  | .evaluateRaise f position thrown => some (f, position, [.raise thrown position])
  | .evaluateIntrinsic f position op argTypes observed =>
    some (f, position,
      if op.modeled then op.role.observations argTypes ++ [.builtinResult op argTypes observed]
      else [.unmodeledBuiltin op argTypes])
  | _ => none

namespace Analysis

/-- Makes observations up to the first that the policy reports. -/
def observeFirst (f : FrameId) (position : Position) : List Observation → AnalysisM (Option Bool)
  | [] => return none
  | observation :: rest => do
    match ← observe f position observation with
    | some isNew => return some isNew
    | none => observeFirst f position rest

/-- Two computations fail alike and leave the same, whatever they answer. -/
def SameEffect {α β : Type} (x : AnalysisM α) (y : AnalysisM β) (s : Analysis) : Prop :=
  match x.run s, y.run s with
  | .ok _ s₁, .ok _ s₂ => s₁ = s₂
  | .error e₁ s₁, .error e₂ s₂ => e₁ = e₂ ∧ s₁ = s₂
  | _, _ => False

variable {s : Analysis} {f : FrameId} {r : Frame} {position : Position} {os : List Observation}
  {op : Operation}

theorem run_discard {α : Type} (x : AnalysisM α) : (discard x).run s =
    match x.run s with
    | .ok _ s' => .ok () s'
    | .error e s' => .error e s' := by
  change EStateM.map _ x s = _
  unfold EStateM.map EStateM.run
  cases x s <;> rfl

theorem run_discard_ok {α : Type} {x : AnalysisM α} {b : α} {s' : Analysis}
    (h : x.run s = .ok b s') : (discard x).run s = .ok () s' := by
  rw [run_discard, h]

theorem SameEffect.run_discard {α β : Type} {x : AnalysisM α} {y : AnalysisM β} {b : β}
    {s' : Analysis} (h : SameEffect x y s) (hy : y.run s = .ok b s') :
    (discard x).run s = .ok () s' := by
  rw [SameEffect, hy] at h
  rw [Analysis.run_discard]
  cases hx : x.run s with
  | ok a s₁ =>
    rw [hx] at h
    rw [show s₁ = s' from h]
  | error e s₁ =>
    rw [hx] at h
    exact h.elim

private theorem run_observeFirst_single (o : Observation) :
    (observeFirst f position [o]).run s = (observe f position o).run s := by
  simp only [observeFirst, EStateM.run_bind]
  cases (observe f position o).run s with
  | ok a s' => cases a <;> rfl
  | error e s' => rfl

private theorem sameEffect_observe {α : Type} {x : AnalysisM α} {o : Observation}
    (answer : Option Bool → α)
    (h : x.run s = match (observe f position o).run s with
      | .ok a s' => .ok (answer a) s'
      | .error e s' => .error e s') : SameEffect x (observeFirst f position [o]) s := by
  simp only [SameEffect, run_observeFirst_single, h]
  cases (observe f position o).run s <;> simp

private theorem run_observeFirst_concat (o : Observation) :
    (observeFirst f position (os ++ [o])).run s =
      match (observeFirst f position os).run s with
      | .ok (some isNew) s' => .ok (some isNew) s'
      | .ok none s' => (observe f position o).run s'
      | .error e s' => .error e s' := by
  induction os generalizing s with
  | nil => exact run_observeFirst_single o
  | cons o' os ih =>
    simp only [List.cons_append, observeFirst, EStateM.run_bind]
    cases (observe f position o').run s with
    | ok a s' =>
      cases a with
      | none => exact ih
      | some isNew => rfl
    | error e s' => rfl

theorem run_observeRole (role : Intrinsic.Role) (argTypes : List Ty) :
    (observeRole f position role argTypes).run s =
      (observeFirst f position (role.observations argTypes)).run s := by
  cases role with
  | fieldAccess field =>
    cases argTypes with
    | nil => rfl
    | cons object _ => exact (run_observeFirst_single _).symm
  | integerDivision =>
    match argTypes with
    | [] | [_] => rfl
    | _ :: divisor :: _ => exact (run_observeFirst_single _).symm
  | other => rfl

/-- An operation that only observes has the effect of its observations. -/
theorem perform_observing (h : op.observing? s.frames = some (f, position, os)) :
    SameEffect (perform op) (observeFirst f position os) s := by
  cases op with
  | resolveCall f' position' call =>
    cases h
    refine sameEffect_observe (fun _ => .resolved call) ?_
    simp only [perform, resolveCall, EStateM.run_bind, run_discard]
    cases (observe f position _).run s <;> rfl
  | queryReturnType f' position' argCount =>
    cases h
    refine sameEffect_observe (fun a => .recorded (a == some true)) ?_
    simp only [perform, observeNew, EStateM.run_bind]
    cases (observe f position _).run s <;> rfl
  | dispatchCall f' position' argTypes call =>
    cases hc : call.callee with
    | none =>
      simp only [Operation.observing?, hc] at h
      cases h
      refine sameEffect_observe (fun _ => .resolved call) ?_
      simp only [perform, dispatchCall, calleeResult, hc, EStateM.run_bind, EStateM.run_pure,
        run_discard]
      cases (observe f position _).run s <;> rfl
    | some callee =>
      cases hr : s.frames.get? callee with
      | none => simp [Operation.observing?, hc, hr] at h
      | some r =>
        simp only [Operation.observing?, hc, hr, Option.map_some] at h
        cases h
        refine sameEffect_observe (fun _ => .resolved call) ?_
        simp only [perform, dispatchCall, calleeResult, hc, EStateM.run_bind, EStateM.run_pure,
          run_frame hr, run_discard]
        cases (observe f position _).run s <;> rfl
  | readGlobal f' position' scope name resolved =>
    cases h
    refine sameEffect_observe (fun a => .recorded (a == some true)) ?_
    simp only [perform, observeNew, EStateM.run_bind]
    cases (observe f position _).run s <;> rfl
  | evaluateCondition f' position' observed =>
    cases h
    refine sameEffect_observe (fun a => .recorded (a == some true)) ?_
    simp only [perform, observeNew, EStateM.run_bind]
    cases (observe f position _).run s <;> rfl
  | evaluateRaise f' position' thrown =>
    cases h
    refine sameEffect_observe (fun a => .recorded (a == some true)) ?_
    simp only [perform, observeNew, EStateM.run_bind]
    cases (observe f position _).run s <;> rfl
  | evaluateIntrinsic f' position' intrinsic argTypes observed =>
    cases h
    by_cases hm : intrinsic.modeled = true
    · simp only [SameEffect, perform, evaluateIntrinsic, hm, if_true, run_observeFirst_concat,
        EStateM.run_bind, run_observeRole]
      cases (observeFirst f position _).run s with
      | ok a s' =>
        cases a with
        | some isNew => simp
        | none =>
          simp only [Option.isSome_none, Bool.false_eq_true, if_false, EStateM.run_bind,
            run_discard]
          cases (observe f position _).run s' <;> simp
      | error e s' => simp
    · simp only [hm, Bool.false_eq_true, if_false]
      refine sameEffect_observe (fun _ => .type observed) ?_
      simp only [perform, evaluateIntrinsic, hm, Bool.false_eq_true, if_false, EStateM.run_bind,
        run_discard]
      cases (observe f position _).run s <;> rfl
  | _ => cases h

theorem observing?_ne_nil {frames : Frames} (h : op.observing? frames = some (f, position, os)) :
    os ≠ [] := by
  cases op with
  | dispatchCall f' position' argTypes call =>
    cases hc : call.callee with
    | none =>
      simp only [Operation.observing?, hc] at h
      cases h
      simp
    | some callee =>
      simp only [Operation.observing?, hc, Option.map_eq_some_iff] at h
      obtain ⟨r, -, h⟩ := h
      cases h
      simp
  | evaluateIntrinsic f' position' intrinsic argTypes observed =>
    cases h
    split <;> simp
  | resolveCall | queryReturnType | readGlobal | evaluateCondition | evaluateRaise =>
    cases h
    simp
  | _ => cases h

/-! ## What the observations amount to -/

section

variable (position) {finding : Finding}

theorem run_observeFirst_declined (hr : s.frames.get? f = some r) (ha : r.aborted = false)
    (hj : os.findSome? (s.strictness.judge r.view) = none) : ∃ events,
      (observeFirst f position os).run s = .ok none { s with events } := by
  induction os generalizing s with
  | nil => exact ⟨s.events, rfl⟩
  | cons o os ih =>
    obtain ⟨hj, hjs⟩ := List.forall_mem_cons.1 (List.findSome?_eq_none_iff.1 hj)
    obtain ⟨events, h⟩ := run_observe_declined position hr ha hj
    obtain ⟨events', h'⟩ := ih (s := { s with events }) hr (List.findSome?_eq_none_iff.2 hjs)
    exact ⟨events', by simp only [observeFirst, EStateM.run_bind, h, h']⟩

theorem run_observeFirst_recorded (hr : s.frames.get? f = some r) (ha : r.aborted = false)
    (hw : r.ledger.phase = .writable)
    (hj : os.findSome? (s.strictness.judge r.view) = some finding) : ∃ isNew events,
      (observeFirst f position os).run s = .ok (some isNew) { s with
        frames := s.frames.update f
          (Frame.note (r.reportAt (s.frames.callerPath f) position finding)),
        events } := by
  induction os generalizing s with
  | nil => simp at hj
  | cons o os ih =>
    rw [List.findSome?_cons] at hj
    cases ho : s.strictness.judge r.view o with
    | none =>
      rw [ho] at hj
      obtain ⟨events, h⟩ := run_observe_declined position hr ha ho
      obtain ⟨isNew, events', h'⟩ := ih (s := { s with events }) hr hj
      exact ⟨isNew, events', by simp only [observeFirst, EStateM.run_bind, h, h']⟩
    | some finding' =>
      rw [ho] at hj
      cases hj
      obtain ⟨isNew, events, h⟩ := run_observe_recorded position hr ha hw ho
      exact ⟨isNew, events, by simp only [observeFirst, EStateM.run_bind, h, EStateM.run_pure]⟩

theorem run_observeFirst_sealed (hr : s.frames.get? f = some r) (ha : r.aborted = false)
    (hw : r.ledger.phase ≠ .writable)
    (hj : os.findSome? (s.strictness.judge r.view) = some finding) : ∃ events,
      (observeFirst f position os).run s =
        .error (.ledgerSealed f r.ledger.phase) { s with events } := by
  induction os generalizing s with
  | nil => simp at hj
  | cons o os ih =>
    rw [List.findSome?_cons] at hj
    cases ho : s.strictness.judge r.view o with
    | none =>
      rw [ho] at hj
      obtain ⟨events, h⟩ := run_observe_declined position hr ha ho
      obtain ⟨events', h'⟩ := ih (s := { s with events }) hr hj
      exact ⟨events', by simp only [observeFirst, EStateM.run_bind, h, h']⟩
    | some finding' =>
      have h := run_observe_sealed position hr ha hw ho
      exact ⟨s.events, by simp only [observeFirst, EStateM.run_bind, h]⟩

theorem run_observeFirst_aborted (hr : s.frames.get? f = some r) (ha : r.aborted = true)
    (hos : os ≠ []) : (observeFirst f position os).run s = .error (.frameAborted f) s := by
  obtain ⟨o, os, rfl⟩ := List.exists_cons_of_ne_nil hos
  simp only [observeFirst, EStateM.run_bind, run_observe_aborted position hr ha]

theorem run_observeFirst_unknown (hr : s.frames.get? f = none) (hos : os ≠ []) :
    (observeFirst f position os).run s = .error (.unknownFrame f) s := by
  obtain ⟨o, os, rfl⟩ := List.exists_cons_of_ne_nil hos
  simp only [observeFirst, EStateM.run_bind, run_observe_unknown position hr]

end

end Analysis

end FrameAudit
