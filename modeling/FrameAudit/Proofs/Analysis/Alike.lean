import FrameAudit.Analysis.Outcome
import FrameAudit.Proofs.Cache.FiniteMap
import Mathlib.Logic.Function.Basic

/-! # Analyses that cannot be told apart

What an operation answers depends on the strictness of the policy, on the frames, on the stack and
on the calls that are kept in the partition of the analysis. Analyses that agree in these are
`Alike`, and every operation takes alike analyses to equal answers or equal faults, in analyses that
are alike again (`perform_matches`). So neither the tuning nor the wrappers of the policy matter,
nor what is kept in other partitions. -/

namespace FrameAudit

/-- The calls that are kept in a partition. -/
def Cache.part (c : Cache) (p : Partition) : Signature → Option CachedCall :=
  fun signature => c.get? ⟨p, signature⟩

theorem Cache.part_insert (c : Cache) (p : Partition) (signature : Signature) (call : CachedCall) :
    (c.insert ⟨p, signature⟩ call).part p = Function.update (c.part p) signature (some call) := by
  funext other
  by_cases h : other = signature
  · simp [part, get?_insert, h]
  · simp [part, get?_insert, h]

namespace Analysis

variable {α β : Type} {s t : Analysis}

/-- The analyses agree in everything that an answer can depend on. -/
structure Alike (s t : Analysis) : Prop where
  strictness : s.strictness = t.strictness
  frames : s.frames = t.frames
  stack : s.stack = t.stack
  part : s.cache.part s.partition = t.cache.part t.partition

/-- Equal answers or equal faults, in alike analyses. -/
inductive AlikeResults :
    EStateM.Result Fault Analysis α → EStateM.Result Fault Analysis α → Prop where
  | ok {s t : Analysis} (a : α) : Alike s t → AlikeResults (.ok a s) (.ok a t)
  | error {s t : Analysis} (fault : Fault) : Alike s t →
    AlikeResults (.error fault s) (.error fault t)

/-- The computations take alike analyses to alike results. -/
def Matches (x y : AnalysisM α) : Prop :=
  ∀ ⦃s t : Analysis⦄, Alike s t → AlikeResults (x.run s) (y.run t)

namespace Alike

theorem nextFrame (h : Alike s t) : s.nextFrame = t.nextFrame := by
  rw [Analysis.nextFrame, h.frames, Analysis.nextFrame]

theorem onStack? (h : Alike s t) (signature : Signature) :
    s.onStack? signature = t.onStack? signature := by
  rw [Analysis.onStack?, h.stack, h.frames, Analysis.onStack?]

theorem cached (h : Alike s t) (signature : Signature) :
    s.cache.get? ⟨s.partition, signature⟩ = t.cache.get? ⟨t.partition, signature⟩ :=
  congrFun h.part signature

theorem judge (h : Alike s t) (view : FrameView) (observation : Observation) :
    s.config.policy.judge view observation = t.config.policy.judge view observation :=
  congrArg (·.judge view observation) h.strictness

end Alike

/-! ## Putting computations together -/

namespace Matches

theorem pure (a : α) : Matches (pure a) (pure a) :=
  fun _ _ h => .ok a h

theorem throw (fault : Fault) : Matches (throw fault : AnalysisM α) (throw fault) :=
  fun _ _ h => .error fault h

theorem bind {x y : AnalysisM α} {k l : α → AnalysisM β} (hx : Matches x y)
    (hk : ∀ a, Matches (k a) (l a)) : Matches (x >>= k) (y >>= l) := by
  intro s t h
  have hres := hx h
  rw [EStateM.run_bind, EStateM.run_bind]
  generalize x.run s = res₁ at hres
  generalize y.run t = res₂ at hres
  cases hres with
  | ok a h => exact hk a h
  | error fault h => exact .error fault h

theorem discard {x y : AnalysisM α} (h : Matches x y) : Matches (discard x) (discard y) :=
  h.bind fun _ => .pure ()

/-- The state is read. -/
theorem get {k l : Analysis → AnalysisM α} (h : ∀ s t, Alike s t → Matches (k s) (l t)) :
    Matches (get >>= k) (get >>= l) :=
  fun s t hst => h s t hst hst

theorem modify {g g' : Analysis → Analysis} (h : ∀ s t, Alike s t → Alike (g s) (g' t)) :
    Matches (modify g) (modify g') :=
  fun s t hst => .ok () (h s t hst)

theorem forM {body : α → AnalysisM PUnit} (h : ∀ a, Matches (body a) (body a)) (l : List α) :
    Matches (l.forM body) (l.forM body) := by
  induction l with
  | nil => exact .pure ()
  | cons a l ih => exact (h a).bind fun _ => ih

theorem ite {c : Prop} [Decidable c] {x x' y y' : AnalysisM α} (hx : Matches x x')
    (hy : Matches y y') : Matches (if c then x else y) (if c then x' else y') := by
  split
  · exact hx
  · exact hy

end Matches

/-! ## The parts of operations -/

/-- Events are no part of what alike analyses agree in. -/
theorem emit_matches (event event' : Event) : Matches (emit event) (emit event') :=
  .modify fun _ _ h => ⟨h.strictness, h.frames, h.stack, h.part⟩

theorem changeFrames_matches (g : Frames → Frames) :
    Matches (modify fun s => { s with frames := g s.frames })
      (modify fun s => { s with frames := g s.frames }) :=
  .modify fun _ _ h => ⟨h.strictness, congrArg g h.frames, h.stack, h.part⟩

theorem changeStack_matches (g : List FrameId → List FrameId) :
    Matches (modify fun s => { s with stack := g s.stack })
      (modify fun s => { s with stack := g s.stack }) :=
  .modify fun _ _ h => ⟨h.strictness, h.frames, congrArg g h.stack, h.part⟩

theorem frame_matches (f : FrameId) : Matches (frame f) (frame f) := by
  apply Matches.get
  intro s t h
  rw [h.frames]
  cases t.frames.get? f with
  | none => exact .throw _
  | some r => exact .pure r

theorem liveFrame_matches (f : FrameId) : Matches (liveFrame f) (liveFrame f) :=
  (frame_matches f).bind fun r => .ite (.throw _) (.pure r)

theorem updateFrame_matches (f : FrameId) (change : Frame → Frame) :
    Matches (updateFrame f change) (updateFrame f change) :=
  changeFrames_matches fun frames => frames.update f change

theorem changeLedger_matches (f : FrameId) (change : Ledger → Except Phase (α × Ledger)) :
    Matches (changeLedger f change) (changeLedger f change) := by
  apply (frame_matches f).bind
  intro r
  cases change r.ledger with
  | error phase => exact .throw _
  | ok changed =>
    obtain ⟨a, ledger⟩ := changed
    exact (updateFrame_matches f _).bind fun _ => .pure a

theorem record_matches (f : FrameId) (ρ : Report) : Matches (record f ρ) (record f ρ) :=
  (changeLedger_matches f _).bind fun isNew => (emit_matches _ _).bind fun _ => .pure isNew

theorem retract_matches (f : FrameId) (kind : ReportKind) :
    Matches (retract f kind) (retract f kind) := by
  apply (changeLedger_matches f _).bind
  intro removed
  exact .ite ((emit_matches _ _).bind fun _ => .pure removed) (.pure removed)

theorem settle_matches (f : FrameId) : Matches (settle f) (settle f) :=
  changeLedger_matches f _

theorem openFrame_matches (r : Frame) : Matches (openFrame r) (openFrame r) :=
  changeFrames_matches (· ++ [r])

theorem pushStack_matches (f : FrameId) : Matches (pushStack f) (pushStack f) :=
  changeStack_matches (· ++ [f])

theorem eraseStack_matches (f : FrameId) : Matches (eraseStack f) (eraseStack f) :=
  changeStack_matches fun stack => (stack.reverse.erase f).reverse

theorem observe_matches (f : FrameId) (position : Position) (observation : Observation) :
    Matches (observe f position observation) (observe f position observation) := by
  apply (liveFrame_matches f).bind
  intro r
  apply Matches.get
  intro s t h
  rw [h.judge, h.frames]
  cases t.config.policy.judge r.view observation with
  | none => exact (emit_matches _ _).bind fun _ => .pure none
  | some finding => exact (record_matches f _).bind fun isNew => .pure (some isNew)

/-! ## Entering -/

theorem enterEntry_matches (signature : Signature) :
    Matches (enterEntry signature) (enterEntry signature) := by
  apply Matches.get
  intro s t h
  rw [h.nextFrame]
  apply (emit_matches _ _).bind
  intro _
  apply (openFrame_matches _).bind
  intro _
  exact (pushStack_matches _).bind fun _ => .pure _

theorem restore_matches (f : FrameId) (call : CachedCall) :
    Matches (restore f call) (restore f call) := by
  apply Matches.get
  intro s t h
  rw [h.frames]
  apply (Matches.forM (fun ρ => (record_matches f _).discard) call.reports).bind
  intro _
  exact (settle_matches f).bind fun _ => updateFrame_matches f _

theorem enterFrom_matches (signature : Signature) (site : CallSite) (caller : Frame) :
    Matches (enterFrom signature site caller) (enterFrom signature site caller) := by
  apply Matches.get
  intro s t h
  rw [h.onStack?, h.nextFrame, h.cached]
  cases t.onStack? signature with
  | some found => exact (emit_matches _ _).bind fun _ => .pure _
  | none =>
    apply (openFrame_matches _).bind
    intro _
    cases t.cache.get? ⟨t.partition, signature⟩ with
    | some call =>
      apply (emit_matches _ _).bind
      intro _
      exact (restore_matches _ call).bind fun _ => .pure _
    | none =>
      apply (emit_matches _ _).bind
      intro _
      exact (pushStack_matches _).bind fun _ => .pure _

/-! ## Observing -/

theorem observeNew_matches (f : FrameId) (position : Position) (observation : Observation) :
    Matches (observeNew f position observation) (observeNew f position observation) :=
  (observe_matches f position observation).bind fun _ => .pure _

theorem abortFrame_matches (f : FrameId) (position : Position) (error : ErrorValue) :
    Matches (abortFrame f position error) (abortFrame f position error) := by
  have hclose : Matches (closeAborted f error) (closeAborted f error) := by
    apply (updateFrame_matches f _).bind
    intro _
    apply (settle_matches f).bind
    intro _
    exact (eraseStack_matches f).bind fun _ => emit_matches _ _
  apply (observeNew_matches f position _).bind
  intro isNew
  exact hclose.bind fun _ => .pure isNew

theorem dispatchCall_matches (f : FrameId) (position : Position) (argTypes : List Ty)
    (call : ResolvedCall) :
    Matches (dispatchCall f position argTypes call) (dispatchCall f position argTypes call) := by
  have hcallee : Matches (calleeResult call) (calleeResult call) := by
    unfold calleeResult
    cases call.callee with
    | none => exact .pure none
    | some callee => exact (frame_matches callee).bind fun r => .pure (some r.result)
  apply hcallee.bind
  intro result
  exact (observe_matches f position _).discard.bind fun _ => .pure call

theorem observeRole_matches (f : FrameId) (position : Position) (role : Intrinsic.Role)
    (argTypes : List Ty) :
    Matches (observeRole f position role argTypes) (observeRole f position role argTypes) := by
  fun_cases observeRole f position role argTypes with
  | case1 => exact observe_matches f position _
  | case2 => exact observe_matches f position _
  | case3 => exact .pure none

theorem evaluateIntrinsic_matches (f : FrameId) (position : Position) (op : Intrinsic)
    (argTypes : List Ty) (observed : Ty) :
    Matches (evaluateIntrinsic f position op argTypes observed)
      (evaluateIntrinsic f position op argTypes observed) := by
  apply Matches.ite
  · apply (observeRole_matches f position op.role argTypes).bind
    intro answer
    apply Matches.ite (.pure _)
    exact (observe_matches f position _).discard.bind fun _ => .pure observed
  · exact (observe_matches f position _).discard.bind fun _ => .pure observed

/-! ## Completing -/

theorem keep_matches (f : FrameId) : Matches (keep f) (keep f) := by
  apply (frame_matches f).bind
  intro r
  apply Matches.ite (.pure ())
  apply Matches.get
  intro s t h
  rw [h.frames]
  apply (emit_matches _ _).bind
  intro _
  apply Matches.modify
  intro s' t' h'
  refine ⟨h'.strictness, h'.frames, h'.stack, ?_⟩
  have hs := s'.cache.part_insert s'.partition r.signature
    ⟨r.result, t.frames.subtreeReports f r.depth⟩
  have ht := t'.cache.part_insert t'.partition r.signature
    ⟨r.result, t.frames.subtreeReports f r.depth⟩
  rw [h'.part] at hs
  exact hs.trans ht.symm

theorem keepCallers_matches (f : FrameId) : Matches (keepCallers f) (keepCallers f) := by
  apply Matches.get
  intro s t h
  rw [h.frames]
  apply Matches.forM
  intro site
  apply (frame_matches site.caller).bind
  intro r
  exact .ite (keep_matches site.caller) (.pure ())

theorem retractUncaught_matches (f : FrameId) (result : Ty) :
    Matches (retractUncaught f result) (retractUncaught f result) := by
  apply Matches.get
  intro s t h
  rw [h.strictness]
  exact .ite (retract_matches f _) (.pure 0)

theorem observeUndefined_matches (f : FrameId) (body : List Instruction) :
    Matches (observeUndefined f body) (observeUndefined f body) :=
  .forM (fun _ => (observe_matches f _ _).discard) _

theorem observeUncaught_matches (f : FrameId) (result : Ty) (body : List Instruction) :
    Matches (observeUncaught f result body) (observeUncaught f result body) := by
  apply (frame_matches f).bind
  intro r
  apply (retractUncaught_matches f result).discard.bind
  intro _
  cases unreportedRaises r.ledger.seriousPositions body with
  | nil => exact .pure ()
  | cons first _ => exact (observe_matches f first.position _).discard

theorem closeFrame_matches (f : FrameId) (result : Ty) :
    Matches (closeFrame f result) (closeFrame f result) := by
  apply (settle_matches f).bind
  intro _
  apply (eraseStack_matches f).bind
  intro _
  exact (frame_matches f).bind fun _ => emit_matches _ _

theorem finishFrame_matches (f : FrameId) (result : Ty) (body : List Instruction) :
    Matches (finishFrame f result body) (finishFrame f result body) := by
  have hfinish : Matches (finishWritable f result body) (finishWritable f result body) := by
    apply (updateFrame_matches f _).bind
    intro _
    apply (observeUndefined_matches f body).bind
    intro _
    apply (observeUncaught_matches f result body).bind
    intro _
    exact (closeFrame_matches f result).bind fun _ => keep_matches f
  apply (liveFrame_matches f).bind
  intro r
  exact .ite (hfinish.bind fun _ => .pure body) (.throw _)

theorem publishResult_matches (f : FrameId) (result : Ty) :
    Matches (publishResult f result) (publishResult f result) := by
  have hkeep : ∀ removed, Matches (keepAnew f removed) (keepAnew f removed) := fun removed =>
    (keep_matches f).bind fun _ => .ite (keepCallers_matches f) (.pure ())
  have hpublish : ∀ phase,
      Matches (publishUnfrozen f result phase) (publishUnfrozen f result phase) := by
    intro phase
    apply (retractUncaught_matches f result).bind
    intro removed
    apply (updateFrame_matches f _).bind
    intro _
    exact .ite ((hkeep removed).bind fun _ => .pure removed) (.pure removed)
  apply (liveFrame_matches f).bind
  intro r
  exact .ite (.throw _) (hpublish _)

/-! ## Operations -/

theorem frozenReports_matches (f : FrameId) : Matches (frozenReports f) (frozenReports f) := by
  apply (frame_matches f).bind
  intro r
  cases r.ledger.frozenReports? with
  | none => exact .throw _
  | some reports => exact .pure reports

theorem Alike.freeze (h : Alike s t) : Alike s.freeze t.freeze :=
  ⟨h.strictness, by rw [Analysis.freeze, h.frames, Analysis.freeze], rfl, h.part⟩

theorem perform_matches (op : Operation) : Matches (perform op) (perform op) := by
  cases op with
  | enterEntry signature => exact (enterEntry_matches signature).bind fun _ => .pure _
  | enterCall signature site =>
    apply Matches.bind _ fun _ => .pure _
    exact (liveFrame_matches site.caller).bind fun r => enterFrom_matches signature site r
  | abortFrame f position error => exact (abortFrame_matches f position error).bind fun _ => .pure _
  | resolveCall f position call =>
    apply Matches.bind _ fun _ => .pure _
    exact (observe_matches f position _).discard.bind fun _ => .pure call
  | dispatchCall f position argTypes call =>
    exact (dispatchCall_matches f position argTypes call).bind fun _ => .pure _
  | queryReturnType f position | readGlobal f position | evaluateCondition f position
  | evaluateRaise f position => exact (observeNew_matches f position _).bind fun _ => .pure _
  | evaluateIntrinsic f position op argTypes observed =>
    exact (evaluateIntrinsic_matches f position op argTypes observed).bind fun _ => .pure _
  | finishFrame f result body => exact (finishFrame_matches f result body).bind fun _ => .pure _
  | publishResult f result => exact (publishResult_matches f result).bind fun _ => .pure _
  | askSignature f | askResult f | askPhase f => exact (frame_matches f).bind fun _ => .pure _
  | askReports f => exact (frozenReports_matches f).bind fun _ => .pure _
  | freeze => exact (Matches.modify fun _ _ h => h.freeze).bind fun _ => .pure _

end Analysis

end FrameAudit
