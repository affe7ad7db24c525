import FrameAudit.Proofs.Analysis.Rooted
import FrameAudit.Proofs.Session.Reachable

/-! # Uncaught raises of calls that return a value

Under the basic policy, a call that returns a value has no uncaught raise of its own. That holds of
every frame and of every call in the cache, in all sessions: a frame takes such reports only when it
is finished without a value, and loses them when a value is published for it. -/

namespace FrameAudit

/-- The report is of an uncaught raise, at the end of a path of the given length. -/
def Report.UncaughtAt (ρ : Report) (length : Nat) : Prop :=
  ρ.kind = .uncaughtException ∧ ρ.path.length = length

/-- A frame that takes reports has none of uncaught raises, and one that returns a value has none of
its own uncaught raises under the basic policy. -/
structure Frame.ValueOrRaise (strictness : Strictness) (r : Frame) : Prop where
  writable : r.ledger.phase = .writable → ∀ ρ ∈ r.ledger.reports, ρ.kind ≠ .uncaughtException
  value : strictness = .basic → r.result.isBottom = false →
    ∀ ρ ∈ r.ledger.reports, ¬ρ.UncaughtAt (r.depth + 1)

/-- In the partitions of basic policies, a call that returns a value has no uncaught raise of its
own. -/
def Cache.ValueOrRaise (c : Cache) : Prop :=
  ∀ ⦃slot call⦄, c.get? slot = some call → slot.partition.policy.strictness = .basic →
    call.result.isBottom = false → ∀ ρ ∈ call.reports, ¬ρ.UncaughtAt 1

namespace Frame.ValueOrRaise

variable {strictness : Strictness} {r : Frame} {result : Ty} {callers : CallPath}
  {position : Position} {body : List Instruction}

theorem of_nil (h : r.ledger.reports = []) : r.ValueOrRaise strictness := by
  constructor <;> simp [h]

theorem note (h : r.ValueOrRaise strictness) {ρ : Report} (hρ : ρ.kind ≠ .uncaughtException) :
    (r.note ρ).ValueOrRaise strictness where
  writable hw := Frame.forall_mem_note (h.writable hw) hρ
  value hs hb := Frame.forall_mem_note (h.value hs hb) fun hu => hρ hu.1

theorem failed (error : ErrorValue) :
    (r.failed callers position error).ValueOrRaise strictness where
  writable hw := by simp [Frame.failed, closed] at hw
  value _ hb := by simp [Frame.failed, Ty.isBottom] at hb

theorem finished (h : r.ValueOrRaise strictness) (hw : r.ledger.phase = .writable) :
    (r.finished strictness callers result body).ValueOrRaise strictness := by
  constructor
  · intro hphase
    rw [phase_finished] at hphase
    cases hphase
  · intro hs hb
    have hresult : result.isBottom = false := by rwa [result_finished] at hb
    -- a value leaves no room for an uncaught raise, and there was none before
    have hnone : ∀ ρ ∈ (r.finished strictness callers result body).ledger.reports,
        ρ.kind ≠ .uncaughtException := by
      refine Frame.forall_mem_finished (h.writable hw) (fun _ _ => ?_) fun _ hcond => ?_
      · simp [Report.kind, Finding.kind, reportAt]
      · simp [hs, hresult] at hcond
    exact fun ρ hρ hu => hnone ρ hρ hu.1

theorem published (h : r.ValueOrRaise strictness) :
    (r.published strictness result).ValueOrRaise strictness := by
  obtain ⟨reports, heq⟩ := r.retracted_eq strictness result
  constructor
  · intro hw
    have hw' : r.ledger.phase = .writable := by
      simpa only [Frame.published, heq] using hw
    exact Frame.forall_mem_retracted (h.writable hw')
  · intro hs hb ρ hρ hu
    exact kind_ne_of_mem_retracted hs hb ρ hρ hu.1

theorem restored {call : CachedCall} (hr : r.ledger.reports = [])
    (hdepth : callers.length = r.depth)
    (h : strictness = .basic → call.result.isBottom = false → ∀ ρ ∈ call.reports, ¬ρ.UncaughtAt 1) :
    (r.restored callers call).ValueOrRaise strictness where
  writable hw := by simp [Frame.restored] at hw
  value hs hb := by
    refine Frame.forall_mem_restored hr fun ρ hρ hu => h hs hb ρ hρ ⟨hu.1, ?_⟩
    have hlen : callers.length + ρ.path.length = r.depth + 1 := by
      simpa [Report.rebase, CallPath.rebase, Frame.restored] using hu.2
    omega

theorem frozen (h : r.ValueOrRaise strictness) : r.frozen.ValueOrRaise strictness where
  writable hw := by simp [Frame.frozen, Ledger.freeze] at hw
  value := h.value

end Frame.ValueOrRaise

namespace Analysis

variable {s : Analysis}

structure ValueOrRaise (s : Analysis) : Prop where
  rooted : Rooted s
  frames : s.frames.All (Frame.ValueOrRaise s.strictness)
  cache : s.cache.ValueOrRaise

namespace ValueOrRaise

private theorem frames_after (h : ValueOrRaise s) (op : Operation) :
    (s.after op).frames.All (Frame.ValueOrRaise s.strictness) := by
  have hl := h.rooted.wellFormed.linked
  rw [after_eq]
  have hstep := step_cases hl op
  generalize s.step op = res at hstep
  cases hstep with
  | failed | answered => exact h.frames
  | noted _ _ f r position finding _ _ hr _ _ hat =>
    exact h.frames.update hr ((h.frames hr).note hat.kind_ne)
  | entry | analyze => exact h.frames.concat (.of_nil rfl)
  | restored signature site c call _ hc _ _ hk =>
    refine h.frames.concat (.restored rfl ?_ (h.cache hk))
    rw [Frames.callersAt, List.length_append, hl.length_callerPath hc]
    rfl
  | aborted f r _ error _ _ hr _ _ => exact h.frames.update hr (.failed error)
  | finished f r _ _ _ hr _ hw => exact h.frames.update hr ((h.frames hr).finished hw)
  | published f r _ _ hr _ _ => exact h.frames.update hr (h.frames hr).published
  | frozen => exact all_freeze fun f r hr => (h.frames hr).frozen

/-- A report of the call of a frame that is one step long is the frame's own. -/
private theorem not_uncaughtAt_callOf {frames : Frames} {strictness : Strictness} {f : FrameId}
    {r : Frame} (hl : frames.Linked) (hroot : frames.Rooted)
    (h : frames.All (Frame.ValueOrRaise strictness)) (hs : strictness = .basic)
    (hr : frames.get? f = some r) (hb : r.result.isBottom = false) :
    ∀ ρ ∈ (frames.callOf f r).reports, ¬ρ.UncaughtAt 1 := by
  rintro ρ hρ ⟨hkind, hlen⟩
  obtain ⟨g, r', hr', hgf, own, hown, rfl⟩ := hl.mem_subtreeReports.1 hρ
  have hgt := (hroot hr' own hown).length_gt hl hr'
  have hlen' : own.path.length - r.depth = 1 := by
    simpa [Report.below, CallPath.below] using hlen
  rcases hgf with rfl | hbeneath
  · obtain rfl := Option.some.inj (hr.symm.trans hr')
    exact (h hr).value hs hb own hown ⟨hkind, by omega⟩
  · obtain ⟨-, r'', hr'', hdepth⟩ := hbeneath.lt hl hr'
    obtain rfl := Option.some.inj (hr.symm.trans hr'')
    omega

theorem after (h : ValueOrRaise s) (op : Operation) : ValueOrRaise (s.after op) := by
  have hroot := h.rooted.after op
  have hframes := h.frames_after op
  have hl := hroot.wellFormed.linked
  have hstep := step_cases h.rooted.wellFormed.linked op
  have hconfig : (s.after op).config = s.config := by
    rw [after_eq]
    exact hstep.config_eq
  refine ⟨hroot, ?_, fun slot call hk hs hb => ?_⟩
  · rwa [show (s.after op).strictness = s.strictness from congrArg (·.policy.strictness) hconfig]
  · have hroot' := hroot.frames
    rw [after_eq] at hk hframes hl hroot'
    rcases hstep.cache_cases hk with hk | ⟨f, r, hr, -, rfl, rfl⟩
    · exact h.cache hk hs hb
    · exact not_uncaughtAt_callOf hl hroot' hframes hs hr.get? hb

end ValueOrRaise

end Analysis

namespace Session

open Analysis (RunFrom)

variable {s : Session} {a : Analysis} {config : Config}

theorem valueOrRaise_invariant :
    Invariant (fun _ _ => True) (fun c => c.Rooted ∧ c.ValueOrRaise) Analysis.ValueOrRaise where
  empty := ⟨fun _ _ h => by simp at h, fun _ _ h => by simp at h⟩
  start config _ h := ⟨.start config h.1, .nil _, h.2⟩
  after op h _ := h.after op
  cache h := ⟨h.rooted.cache, h.cache⟩

/-- In all analyses of all sessions: no ledger that takes reports holds an uncaught raise; under the
basic policy no frame with a value holds one of its own; and in the partitions of basic policies no
call with a value is kept with one of its own. -/
theorem no_uncaught_raise_beside_value (hs : s.Reachable) (ha : RunFrom (s.analysis config) a) :
    (∀ f r, a.frames.get? f = some r → r.ledger.phase = .writable →
      ∀ ρ ∈ r.ledger.reports, ρ.kind ≠ .uncaughtException) ∧
    (a.config.policy.strictness = .basic → ∀ f r, a.frames.get? f = some r →
      r.result.isBottom = false → ∀ ρ ∈ r.ledger.reports, ρ.kind = .uncaughtException →
        ρ.path.length ≠ r.depth + 1) ∧
    (∀ slot call, a.cache.get? slot = some call → slot.partition.policy.strictness = .basic →
      call.result.isBottom = false → ∀ ρ ∈ call.reports, ρ.kind = .uncaughtException →
        ρ.path.length ≠ 1) := by
  have h := valueOrRaise_invariant.analysis hs ha
  refine ⟨fun f r hr => (h.frames hr).writable, ?_, ?_⟩
  · intro hb f r hr hvalue ρ hρ hkind hlen
    exact (h.frames hr).value hb hvalue ρ hρ ⟨hkind, hlen⟩
  · intro slot call hk hb hvalue ρ hρ hkind hlen
    exact h.cache hk hb hvalue ρ hρ ⟨hkind, hlen⟩

/-- A call that raises is analysed in one run; in the next one it is restored, and a value is
published for it. -/
def raisingThenValue : Session × List Operation :=
  let call : List Operation :=
    [.enterEntry ⟨"main", []⟩, .enterCall ⟨"callee", []⟩ ⟨⟨0⟩, ⟨"m.jl", 1⟩⟩]
  let first := (({} : Session).analysis {}).run
    (call ++ [.finishFrame ⟨1⟩ .bottom [.raise ⟨"m.jl", 2⟩ "error(x)"]])
  (({} : Session).afterAnalysis first, call ++ [.publishResult ⟨1⟩ .any])

theorem no_uncaught_raise_beside_value_restored :
    let warm := raisingThenValue.1
    let last := (warm.analysis {}).run raisingThenValue.2
    warm.Reachable ∧ RunFrom (warm.analysis {}) last ∧
      (∃ ρ ∈ warm.cache.entries.flatMap (·.2.reports), ρ.UncaughtAt 1) ∧
      ∃ r, last.frames.get? ⟨1⟩ = some r ∧ r.result = .any ∧ r.depth = 1 ∧
        ∀ ρ ∈ r.ledger.reports, ρ.kind = .uncaughtException → ρ.path.length ≠ 2 := by
  have hwarm : raisingThenValue.1.Reachable :=
    .dropped {} .start (.run .start fun _ _ _ => trivial)
  have hlast : RunFrom (raisingThenValue.1.analysis {})
      ((raisingThenValue.1.analysis {}).run raisingThenValue.2) :=
    .run .start fun _ _ _ => trivial
  obtain ⟨-, hvalue, -⟩ := no_uncaught_raise_beside_value hwarm hlast
  refine ⟨hwarm, hlast, ?_, ?_⟩
  · exact ⟨⟨[⟨⟨"callee", []⟩, ⟨"m.jl", 2⟩⟩], .uncaughtException [⟨⟨"m.jl", 2⟩, "error(x)"⟩]⟩,
      by decide, by decide, by decide⟩
  · obtain ⟨r, hr, hresult, hdepth⟩ : ∃ r, ((raisingThenValue.1.analysis {}).run
        raisingThenValue.2).frames.get? ⟨1⟩ = some r ∧ r.result = .any ∧ r.depth = 1 :=
      ⟨_, rfl, rfl, rfl⟩
    refine ⟨r, hr, hresult, hdepth, ?_⟩
    have hdone := hvalue rfl ⟨1⟩ r hr (by rw [hresult]; rfl)
    rwa [hdepth] at hdone

end Session

end FrameAudit
