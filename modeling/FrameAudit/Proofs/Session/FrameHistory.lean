import FrameAudit.Proofs.Analysis.History
import FrameAudit.Proofs.Session.UncaughtRaises

/-! # Frames over whole runs

What any two points of one run have to do with each other: the later one has the frames of the
earlier one, each in a later state. Reports are lost only where a value is published for their
frame, a frozen frame stays as it is, and an aborted frame refuses every operation and is never
kept. -/

namespace FrameAudit

namespace Frames

variable {old new : Frames}

/-- What never changes about the frames. -/
def calls (frames : Frames) : List (Signature × Option CallSite × Bool × Nat) :=
  frames.map fun r => (r.signature, r.site, r.isEntry, r.depth)

theorem Extends.calls_isPrefix (h : old.Extends new) : old.calls <+: new.calls := by
  rw [List.prefix_iff_getElem?]
  intro i hi
  have hi' : i < old.length := by simpa [calls] using hi
  obtain ⟨r', hr', hsame⟩ := h (f := ⟨i⟩) (List.getElem?_eq_getElem hi')
  have hr' : new[i]? = some r' := hr'
  simp [calls, hr', hsame.signature, hsame.site, hsame.isEntry, hsame.depth]

theorem Advance.extends {strictness : Strictness} (h : old.Advance strictness new) :
    old.Extends new := by
  intro f r hr
  obtain ⟨r', hr', hadv⟩ := h f r hr
  exact ⟨r', hr', hadv.sameCall⟩

end Frames

/-- The operation only asks for what is known. -/
def Operation.asks : Operation → Bool
  | .askSignature _ | .askResult _ | .askPhase _ | .askReports _ => true
  | _ => false

namespace Analysis

variable {s : Analysis} {op : Operation} {f : FrameId} {r r' : Frame} {ρ : Report}
  {res : EStateM.Result Fault Analysis Answer}

/-! ## Lost reports -/

theorem Step.published_of_lost (h : Step s op res)
    (hframes : s.frames.All (Frame.ValueOrRaise s.strictness)) (hr : s.frames.get? f = some r)
    (hr' : (leaves res).frames.get? f = some r') (hρ : ρ ∈ r.ledger.reports)
    (hlost : ρ ∉ r'.ledger.reports) :
    ∃ result, op = .publishResult f result ∧ result.isBottom = false := by
  obtain ⟨r'', hr'', hadv⟩ := h.advance f r hr
  obtain rfl := Option.some.inj (hr'.symm.trans hr'')
  have hkind : ρ.kind = .uncaughtException := by
    by_contra hkind
    have hmem := hadv.grows.lasting.subset (Frame.mem_lasting.2 ⟨hρ, hkind⟩)
    exact hlost (Frame.mem_lasting.1 hmem).1
  -- a frame that takes reports has no such report yet
  have hw : r.ledger.phase ≠ .writable := fun hw => (hframes hr).writable hw ρ hρ hkind
  have hsame : s.frames.get? f ≠ some r' := fun h => hlost (Option.some.inj (hr.symm.trans h) ▸ hρ)
  have hother : ∀ {g c change}, s.frames.get? g = some c → c.ledger.phase = .writable →
      (s.frames.update g change).get? f ≠ some r' := by
    intro g c change hc hcw
    have hne : f ≠ g := by
      rintro rfl
      exact hw (Option.some.inj (hr.symm.trans hc) ▸ hcw)
    rwa [Frames.get?_update_of_ne hne]
  cases h with
  | failed | answered => exact (hsame hr').elim
  | noted _ _ g c _ _ _ _ hc _ hcw _ => exact (hother hc hcw hr').elim
  | aborted g c _ _ _ _ hc _ hcw => exact (hother hc hcw hr').elim
  | finished g c _ _ _ hc _ hcw => exact (hother hc hcw hr').elim
  | entry | analyze | restored =>
    rw [leaves, Frames.get?_append_of_some hr] at hr'
    exact (hsame (hr.trans hr')).elim
  | frozen =>
    rw [leaves, get?_freeze, hr] at hr'
    cases hr'
    exact (hlost hρ).elim
  | published g c result _ hc _ _ =>
    rcases Frames.get?_update_cases hc hr' with ⟨rfl, rfl⟩ | ⟨-, h⟩
    · refine ⟨result, rfl, ?_⟩
      by_contra hb
      obtain rfl := Option.some.inj (hr.symm.trans hc)
      exact hlost (by simpa [Frame.published, Frame.retracted, hb] using hρ)
    · exact (hsame h).elim

/-- If a report is lost in a run, then where a value is published for its frame. -/
theorem ValueOrRaise.published_of_lost (h : ValueOrRaise s) (hr : s.frames.get? f = some r)
    (hρ : ρ ∈ r.ledger.reports) {ops : List Operation} (hr' : (s.run ops).frames.get? f = some r')
    (hlost : ρ ∉ r'.ledger.reports) : ∃ before result later q q',
      ops = before ++ .publishResult f result :: later ∧ result.isBottom = false ∧
      (s.run before).frames.get? f = some q ∧ ρ ∈ q.ledger.reports ∧
      (s.run (before ++ [.publishResult f result])).frames.get? f = some q' ∧
      ρ ∉ q'.ledger.reports := by
  induction ops generalizing s r with
  | nil => exact (hlost (Option.some.inj (hr.symm.trans hr') ▸ hρ)).elim
  | cons op ops ih =>
    have hwell := h.rooted.wellFormed
    obtain ⟨q, hq, -⟩ := hwell.advance_after op f r hr
    by_cases hkept : ρ ∈ q.ledger.reports
    · obtain ⟨before, result, later, p, p', rfl, hrest⟩ := ih (h.after op) hq hkept hr'
      exact ⟨op :: before, result, later, p, p', rfl, hrest⟩
    · have hq' : (leaves (s.step op)).frames.get? f = some q := after_eq s op ▸ hq
      obtain ⟨result, rfl, hb⟩ :=
        (step_cases hwell.linked op).published_of_lost h.frames hr hq' hρ hkept
      exact ⟨[], result, ops, r, q, rfl, hb, hr, hρ, hq, hkept⟩

/-! ## Aborted frames -/

/-- Aborted frames return nothing. -/
def AbortedBottom (s : Analysis) : Prop :=
  s.frames.All fun r => r.aborted = true → r.result = .bottom

theorem AbortedBottom.after (h : AbortedBottom s) (hl : s.frames.Linked) (op : Operation) :
    AbortedBottom (s.after op) := by
  rw [AbortedBottom, after_eq]
  have hstep := step_cases hl op
  generalize s.step op = res at hstep
  cases hstep with
  | failed | answered => exact h
  | noted _ _ f r _ _ _ _ hr _ _ _ =>
    have hbottom := h hr
    exact h.update hr hbottom
  | entry | analyze | restored => exact h.concat fun ha => by cases ha
  | aborted f r _ _ _ _ hr _ _ => exact h.update hr fun _ => rfl
  | finished f r _ _ _ hr ha _ => exact h.update hr fun ha' => by simp [ha] at ha'
  | published f r _ _ hr ha _ => exact h.update hr fun ha' => by simp [ha] at ha'
  | frozen => exact all_freeze h

/-- Operations about an aborted frame are refused. A callee that is unknown is noticed first. -/
theorem refusal?_of_aborted (hr : s.frames.get? f = some r) (ha : r.aborted = true)
    (hf : op.frame? = some f) (hasks : op.asks = false) : s.refusal? op =
      some ((op.unknownCallee? s.frames).elim (.frameAborted f) .unknownFrame) := by
  have hrefused : ∀ check, s.frames.refusal? f check = some (.frameAborted f) := by
    intro check
    simp [Frames.refusal?, hr, ha]
  cases op with
  | enterEntry | enterCall | freeze => cases hf
  | askSignature | askResult | askPhase | askReports => cases hasks
  | dispatchCall g position argTypes call =>
    cases hf
    cases hc : call.callee with
    | none => simp [refusal?, Operation.observing?, Operation.unknownCallee?, hc, hrefused]
    | some callee =>
      cases hcallee : s.frames.get? callee <;>
        simp [refusal?, Operation.observing?, Operation.unknownCallee?, hc, hcallee, Option.filter,
          hrefused]
  | _ =>
    cases hf
    exact hrefused _

theorem run_keep_aborted (hr : s.frames.get? f = some r) (ha : r.aborted = true) :
    (keep f).run s = .ok () s := by
  simp [keep, run_frame hr, ha]

/-- What an operation puts into the cache is the call of another frame than those that are aborted
later. -/
theorem WellFormed.kept_of_new (h : WellFormed s) {slot : Cache.Slot} {call : CachedCall}
    {later : List Operation} (hr' : ((s.after op).run later).frames.get? f = some r')
    (ha : r'.aborted = true) (hold : s.cache.get? slot ≠ some call)
    (hnew : (s.after op).cache.get? slot = some call) : ∃ g q, g ≠ f ∧
      (s.after op).frames.Keeps g q ∧ slot = ⟨s.partition, q.signature⟩ ∧
      call = (s.after op).frames.callOf g q := by
  have hadv := (h.after op).advance_run later
  rw [after_eq] at hr' hnew hadv ⊢
  obtain hk | ⟨g, q, hq, hsettled, hslot, hcall⟩ := (step_cases h.linked op).cache_cases hnew
  · exact (hold hk).elim
  · refine ⟨g, q, ?_, hq, hslot, hcall⟩
    rintro rfl
    -- a settled frame is not aborted any more
    obtain ⟨q', hq', hadv⟩ := hadv g q hq.get?
    have hlive := (hadv.closed (by simp [hsettled])).2.trans hq.aborted
    rw [← Option.some.inj (hr'.symm.trans hq'), ha] at hlive
    cases hlive

/-! ## Two points of a run -/

/-- What became of the frame `f` from one point of a run, where it is `r`, to a later one, where it
is `r'` after the operations. -/
structure Became (s : Analysis) (ops : List Operation) (f : FrameId) (r r' : Frame) : Prop where
  phase : r.ledger.phase.rank ≤ r'.ledger.phase.rank
  sound : s.strictness = .sound → r.ledger.reports <+: r'.ledger.reports
  lasting : r.lasting <+: r'.lasting
  /-- A report that is lost is retracted by a value for this very frame. -/
  lost : ∀ ρ ∈ r.ledger.reports, ρ ∉ r'.ledger.reports → ∃ before result later q q',
    ops = before ++ .publishResult f result :: later ∧ result.isBottom = false ∧
    (s.run before).frames.get? f = some q ∧ ρ ∈ q.ledger.reports ∧
    (s.run (before ++ [.publishResult f result])).frames.get? f = some q' ∧ ρ ∉ q'.ledger.reports
  closed : r.ledger.phase ≠ .writable → r'.ledger.reports.Sublist r.ledger.reports
  frozen : r.ledger.phase = .frozen → r'.ledger.reports = r.ledger.reports ∧
    r'.result = r.result ∧ r'.aborted = r.aborted
  aborted : r.aborted = true → r'.aborted = true ∧ r'.result = .bottom
  refused : r.aborted = true → ∀ op, op.frame? = some f → op.asks = false →
    ∃ s', (s.run ops).step op = .error ((op.unknownCallee? (s.run ops).frames).elim
      (.frameAborted f) .unknownFrame) s'
  noCalls : r.aborted = true → ∀ signature position,
    ∃ s', (s.run ops).step (.enterCall signature ⟨f, position⟩) = .error (.frameAborted f) s'
  /-- The call of an aborted frame is not kept, neither before nor after it was aborted. -/
  notKept : r'.aborted = true → (keep f).run (s.run ops) = .ok () (s.run ops) ∧
    ∀ before op later, ops = before ++ op :: later → ∀ slot call,
      (s.run before).cache.get? slot ≠ some call →
      (s.run (before ++ [op])).cache.get? slot = some call → ∃ g q, g ≠ f ∧
        (s.run (before ++ [op])).frames.Keeps g q ∧ slot = ⟨s.partition, q.signature⟩ ∧
        call = (s.run (before ++ [op])).frames.callOf g q

end Analysis

namespace Session

open Analysis (RunFrom)

variable {s : Session} {a : Analysis} {config : Config}

theorem aborted_invariant : Invariant (fun _ _ => True) Cache.Rooted
    fun a => a.Rooted ∧ a.AbortedBottom where
  empty _ _ h := by simp at h
  start config _ h := ⟨.start config h, fun _ _ hr => by simp [Frames.get?] at hr⟩
  after op h _ := ⟨h.1.after op, h.2.after h.1.wellFormed.linked op⟩
  cache h := h.1.cache

/-- In all analyses of all sessions, at any two points of a run: the frames of the earlier one are
those that the later one starts with, and each of them became what it is by closing its ledger, by
reports behind the others, and by values published for it. -/
theorem frame_history_monotone (hs : s.Reachable) (ha : RunFrom (s.analysis config) a)
    (ops : List Operation) :
    a.frames.calls <+: (a.run ops).frames.calls ∧
    ∀ f r, a.frames.get? f = some r →
      ∃ r', (a.run ops).frames.get? f = some r' ∧ a.Became ops f r r' := by
  have hvalue := valueOrRaise_invariant.analysis hs ha
  have hwell := hvalue.rooted.wellFormed
  have hadvance := hwell.advance_run ops
  have hl := (hwell.run ops).linked
  refine ⟨hadvance.extends.calls_isPrefix, fun f r hr => ?_⟩
  obtain ⟨r', hr', hadv⟩ := hadvance f r hr
  refine ⟨r', hr', ?_⟩
  exact
    { phase := hadv.phase
      sound := hadv.grows.sound
      lasting := hadv.grows.lasting
      lost := fun ρ hρ hlost => hvalue.published_of_lost hr hρ hr' hlost
      closed := fun hw => (hadv.closed hw).1
      frozen := fun hf => by simp [hadv.frozen hf]
      aborted := fun hab => by
        obtain ⟨hab', hresult⟩ := hadv.aborted hab
        exact ⟨hab', hresult.trans ((aborted_invariant.analysis hs ha).2 hr hab)⟩
      refused := fun hab op hf hasks =>
        (Analysis.step_error_iff hl).2
          (Analysis.refusal?_of_aborted hr' (hadv.aborted hab).1 hf hasks)
      noCalls := fun hab signature position => by
        refine (Analysis.step_error_iff hl).2 ?_
        simp [Analysis.refusal?, Frames.refusal?, hr', (hadv.aborted hab).1]
      notKept := fun hab => by
        refine ⟨Analysis.run_keep_aborted hr' hab, ?_⟩
        rintro before op later rfl slot call hold hnew
        have hpartition : (a.run before).partition = a.partition :=
          congrArg Config.partition (hwell.config_run before)
        rw [Analysis.run_append] at hr' hnew ⊢
        rw [← hpartition]
        exact (hwell.run before).kept_of_new hr' hab hold hnew }

/-- One callee raises and gets a value later, another one is aborted. -/
def publishedAndAborted : List Operation × List Operation :=
  ([.enterEntry ⟨"main", []⟩,
    .enterCall ⟨"raising", []⟩ ⟨⟨0⟩, ⟨"m.jl", 1⟩⟩,
    .readGlobal ⟨1⟩ ⟨"m.jl", 10⟩ "Main" "x" false,
    .finishFrame ⟨1⟩ .bottom [.raise ⟨"m.jl", 11⟩ "error(x)"],
    .enterCall ⟨"broken", []⟩ ⟨⟨0⟩, ⟨"m.jl", 2⟩⟩,
    .abortFrame ⟨2⟩ ⟨"m.jl", 20⟩ ⟨"ErrorException", "no body"⟩],
   [.publishResult ⟨1⟩ .any, .finishFrame ⟨0⟩ .any [], .freeze])

theorem frame_history_monotone_publishedAndAborted :
    let a := (({} : Session).analysis {}).run publishedAndAborted.1
    let b := a.run publishedAndAborted.2
    RunFrom (({} : Session).analysis {}) a ∧
      (∃ r r', a.frames.get? ⟨1⟩ = some r ∧ b.frames.get? ⟨1⟩ = some r' ∧
        r.ledger.reports.length = 2 ∧ r'.ledger.reports.length = 1 ∧
        a.Became publishedAndAborted.2 ⟨1⟩ r r') ∧
      ∃ r r', a.frames.get? ⟨2⟩ = some r ∧ b.frames.get? ⟨2⟩ = some r' ∧ r.aborted = true ∧
        (∃ b', b.step (.publishResult ⟨2⟩ .any) = .error (.frameAborted ⟨2⟩) b') ∧
        a.Became publishedAndAborted.2 ⟨2⟩ r r' := by
  have ha : RunFrom (({} : Session).analysis {})
      ((({} : Session).analysis {}).run publishedAndAborted.1) := .run .start fun _ _ _ => trivial
  obtain ⟨-, hbecame⟩ := frame_history_monotone .start ha publishedAndAborted.2
  refine ⟨ha, ?_, ?_⟩
  · obtain ⟨r, hr, hlength⟩ : ∃ r, ((({} : Session).analysis {}).run
        publishedAndAborted.1).frames.get? ⟨1⟩ = some r ∧ r.ledger.reports.length = 2 :=
      ⟨_, rfl, rfl⟩
    obtain ⟨r', hr', h⟩ := hbecame ⟨1⟩ r hr
    have hlength' : r'.ledger.reports.length = 1 := by
      cases hr'
      rfl
    exact ⟨r, r', hr, hr', hlength, hlength', h⟩
  · obtain ⟨r, hr, haborted⟩ : ∃ r, ((({} : Session).analysis {}).run
        publishedAndAborted.1).frames.get? ⟨2⟩ = some r ∧ r.aborted = true := ⟨_, rfl, rfl⟩
    obtain ⟨r', hr', h⟩ := hbecame ⟨2⟩ r hr
    exact ⟨r, r', hr, hr', haborted, h.refused haborted (.publishResult ⟨2⟩ .any) rfl rfl, h⟩

end Session

end FrameAudit
