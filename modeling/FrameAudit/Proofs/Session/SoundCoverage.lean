import FrameAudit.Proofs.Analysis.Coverage
import FrameAudit.Proofs.Analysis.History
import FrameAudit.Proofs.Analysis.Writable
import FrameAudit.Proofs.Session.RaiseAgreement

/-! # The sound policy covers the basic one

One analysis under the basic policy and one under the sound policy carry out the same operations,
each with a cache of its own (`Analysis.Lockstep`). An operation may fail in one of them and not in
the other, but then it is an observation of a frame that takes no reports, which is left alone in
both. -/

namespace FrameAudit

namespace Analysis

variable {b s : Analysis} {op : Operation} {f : FrameId} {r : Frame} {position : Position}
  {os : List Observation} {signature : Signature}

/-- Two analyses of the same operations, under the basic and under the sound policy. -/
structure Lockstep (b s : Analysis) : Prop where
  basic : b.strictness = .basic
  sound : s.strictness = .sound
  rooted : b.Rooted
  kept : s.KeptCalls
  own : s.frames.WritableOwn
  agree : ∃ F, s.RaisesAgree F
  covers : s.Covers b

namespace Lockstep

theorem wellFormed (h : Lockstep b s) : WellFormed b ∧ WellFormed s :=
  ⟨h.rooted.wellFormed, h.kept.values.rooted.wellFormed⟩

theorem callerPath_eq (h : Lockstep b s) (hr : b.frames.get? f = some r) :
    s.frames.callerPath f = b.frames.callerPath f :=
  h.covers.frames.callerPath_eq h.wellFormed.1.linked h.wellFormed.2.linked hr

/-- Nothing changes in either analysis. -/
private theorem covers_of_events (h : Lockstep b s) (hb : ∃ events, b.after op = { b with events })
    (hs : ∃ events, s.after op = { s with events }) : (s.after op).Covers (b.after op) := by
  obtain ⟨_, hb⟩ := hb
  obtain ⟨_, hs⟩ := hs
  rw [hb, hs]
  exact ⟨h.covers.stack, h.covers.frames, h.covers.cache⟩

private theorem covers_enterEntry (h : Lockstep b s) (signature : Signature) :
    (s.after (.enterEntry signature)).Covers (b.after (.enterEntry signature)) := by
  obtain ⟨_, hb⟩ := run_enterEntry b signature
  obtain ⟨_, hs⟩ := run_enterEntry s signature
  rw [after_ok (step_ok rfl hb), after_ok (step_ok rfl hs)]
  refine ⟨?_, h.covers.frames.concat (.of_nil rfl), h.covers.cache⟩
  simp [h.covers.stack, nextFrame, h.covers.frames.length_eq]

private theorem onStack?_eq_none_iff (h : Lockstep b s) :
    s.onStack? signature = none ↔ b.onStack? signature = none := by
  rw [onStack?_eq_none, onStack?_eq_none, h.covers.stack]
  refine forall₂_congr fun f _ => ⟨fun hs r hr => ?_, fun hb r' hr' => ?_⟩
  · obtain ⟨r', hr', hcov⟩ := h.covers.frames.exists_of_some hr
    exact hcov.sameCall.signature ▸ hs r' hr'
  · obtain ⟨r, hr, hcov⟩ := h.covers.frames.of_some hr'
    exact hcov.sameCall.signature.symm ▸ hb r hr

/-- A frame that is filled from what both analyses keep of the call. -/
private theorem restored_coveredBy (h : Lockstep b s) {call call' : CachedCall} {r : Frame}
    (hk : b.cache.get? ⟨b.partition, signature⟩ = some call)
    (hk' : s.cache.get? ⟨s.partition, signature⟩ = some call') (hcov : call.CoveredBy call')
    (hr : r.ledger.reports = []) (callers : CallPath) :
    (r.restored callers call).CoveredBy (r.restored callers call') := by
  obtain ⟨F, hF⟩ := h.agree
  refine .restored hcov hr (fun ρ hρ => ?_) fun σ hσ τ hτ hkσ hkτ hpath => ?_
  · obtain ⟨position, rest, hpath⟩ := h.rooted.cache hk ρ hρ
    rw [hpath]
    exact List.cons_ne_nil _ _
  · obtain ⟨position, rest, hstart⟩ := h.kept.values.rooted.cache hk' σ hσ
    obtain ⟨last, hlast⟩ : ∃ last, σ.path.getLast? = some last :=
      Option.ne_none_iff_exists'.1 (by simp [hstart])
    have hσF := hF.cache signature call' hk' σ hσ last.signature ⟨hkσ, by rw [hlast]; rfl⟩
    have hτF := hF.cache signature call' hk' τ hτ last.signature
      ⟨hkτ, by rw [← hpath, hlast]; rfl⟩
    exact hσF.trans hτF.symm

/-- A call that is not being analysed opens a frame, from what is kept of it or to be analysed. -/
private theorem covers_enterCall_open (h : Lockstep b s) {site : CallSite} {c : Frame}
    (hc : b.frames.get? site.caller = some c) (ha : c.aborted = false)
    (hon : b.onStack? signature = none) :
    (s.after (.enterCall signature site)).Covers (b.after (.enterCall signature site)) := by
  obtain ⟨c', hc', hcov⟩ := h.covers.frames.exists_of_some hc
  have ha' := hcov.aborted.trans ha
  have hon' := h.onStack?_eq_none_iff.2 hon
  have hkeep := h.covers.cache signature
  generalize hk : b.cache.get? ⟨b.partition, signature⟩ = kept at hkeep
  generalize hk' : s.cache.get? ⟨s.partition, signature⟩ = kept' at hkeep
  cases hkeep with
  | none =>
    obtain ⟨_, hb⟩ := run_enterCall_analyze hc ha hon hk
    obtain ⟨_, hs⟩ := run_enterCall_analyze hc' ha' hon' hk'
    rw [after_ok (step_ok rfl hb), after_ok (step_ok rfl hs), hcov.sameCall.depth]
    refine ⟨?_, h.covers.frames.concat (.of_nil rfl), h.covers.cache⟩
    simp [h.covers.stack, nextFrame, h.covers.frames.length_eq]
  | some hcall =>
    obtain ⟨_, hb⟩ := run_enterCall_restored h.wellFormed.1.linked hc ha hon hk
    obtain ⟨_, hs⟩ := run_enterCall_restored h.wellFormed.2.linked hc' ha' hon' hk'
    have hcallers : s.frames.callersAt site c' = b.frames.callersAt site c := by
      rw [Frames.callersAt, Frames.callersAt, h.callerPath_eq hc, hcov.sameCall.signature]
    rw [after_ok (step_ok rfl hb), after_ok (step_ok rfl hs), hcov.sameCall.depth, hcallers]
    exact ⟨h.covers.stack, h.covers.frames.concat (h.restored_coveredBy hk hk' hcall rfl _),
      h.covers.cache⟩

private theorem covers_enterCall (h : Lockstep b s) (signature : Signature) (site : CallSite) :
    (s.after (.enterCall signature site)).Covers (b.after (.enterCall signature site)) := by
  cases href : b.refusal? (.enterCall signature site) with
  | some fault =>
    have href' : s.refusal? (.enterCall signature site) ≠ none := by
      intro hnone
      obtain ⟨c', hc', ha', -⟩ := Frames.refusal?_eq_none.1 hnone
      obtain ⟨c, hc, hcov⟩ := h.covers.frames.of_some hc'
      have hlive : b.refusal? (.enterCall signature site) = none :=
        Frames.refusal?_eq_none.2 ⟨c, hc, hcov.aborted.symm.trans ha', rfl⟩
      simp [hlive] at href
    obtain ⟨_, href'⟩ := Option.ne_none_iff_exists'.1 href'
    exact h.covers_of_events (after_refused href) (after_refused href')
  | none =>
    obtain ⟨c, hc, ha, -⟩ := Frames.refusal?_eq_none.1 href
    cases hon : b.onStack? signature with
    | none => exact h.covers_enterCall_open hc ha hon
    | some found =>
      obtain ⟨c', hc', hcov⟩ := h.covers.frames.exists_of_some hc
      have hon' : s.onStack? signature ≠ none := by
        rw [Ne, h.onStack?_eq_none_iff, hon]
        exact Option.some_ne_none found
      obtain ⟨found', hon'⟩ := Option.ne_none_iff_exists'.1 hon'
      obtain ⟨_, hb⟩ := run_enterCall_cycle hc ha hon
      obtain ⟨_, hs⟩ := run_enterCall_cycle hc' (hcov.aborted.trans ha) hon'
      exact h.covers_of_events ⟨_, after_ok (step_ok rfl hb)⟩ ⟨_, after_ok (step_ok rfl hs)⟩

private theorem covers_observing (h : Lockstep b s) (hop : op.Analyzes)
    (hobs : op.observing? b.frames = some (f, position, os)) :
    (s.after op).Covers (b.after op) := by
  have hobs' := (h.covers.frames.observing?_eq op).trans hobs
  rcases h.wellFormed.1.after_observing hobs with ⟨r, _, hr, hw, hb⟩ | ⟨hsealed, hb⟩
  · obtain ⟨r', hr', hcov⟩ := h.covers.frames.exists_of_some hr
    rcases h.wellFormed.2.after_observing hobs' with ⟨_, _, _, _, hs⟩ | ⟨hsealed, -⟩
    · rw [hb, hs, h.basic, h.sound, h.callerPath_eq hr]
      refine ⟨h.covers.stack, h.covers.frames.update hr hr' (hcov.observedFirst fun d hd => ?_),
        h.covers.cache⟩
      obtain ⟨o, ho, hj⟩ := List.exists_of_findSome?_eq_some hd
      obtain ⟨d', hd', hwithin⟩ := Operation.found_within hop hobs hd
      refine ⟨?_, d', hd', hwithin.kind_eq⟩
      exact (Strictness.isAt_of_judge (Operation.isAt_of_observing hobs o ho) hj).kind_ne
    · exact absurd (hcov.phase.trans hw) (hsealed r' hr')
  · rcases h.wellFormed.2.after_observing hobs' with ⟨r', _, hr', hw, _⟩ | ⟨-, hs⟩
    · obtain ⟨r, hr, hcov⟩ := h.covers.frames.of_some hr'
      exact absurd (hcov.phase.symm.trans hw) (hsealed r hr)
    · exact h.covers_of_events hb hs

private theorem covers_dispatchCall (h : Lockstep b s) {argTypes : List Ty} {call : ResolvedCall} :
    (s.after (.dispatchCall f position argTypes call)).Covers
      (b.after (.dispatchCall f position argTypes call)) := by
  cases hobs : (Operation.dispatchCall f position argTypes call).observing? b.frames with
  | some observed => exact h.covers_observing trivial hobs
  | none =>
    have hobs' := (h.covers.frames.observing?_eq _).trans hobs
    exact h.covers_of_events (after_dispatchCall_unknown hobs) (after_dispatchCall_unknown hobs')

/-- An operation that needs a frame that takes reports: both analyses have one, or both refuse. -/
private theorem covers_of_writable (h : Lockstep b s) (f : FrameId)
    (hneeds : ∀ a : Analysis, a.refusal? op = none →
      ∃ r, a.frames.get? f = some r ∧ r.ledger.phase = .writable)
    (haccepted : ∀ r r', b.frames.get? f = some r → s.frames.get? f = some r' → r.CoveredBy r' →
      r.ledger.phase = .writable → (s.after op).Covers (b.after op)) :
    (s.after op).Covers (b.after op) := by
  by_cases hwritable : ∃ r, b.frames.get? f = some r ∧ r.ledger.phase = .writable
  · obtain ⟨r, hr, hw⟩ := hwritable
    obtain ⟨r', hr', hcov⟩ := h.covers.frames.exists_of_some hr
    exact haccepted r r' hr hr' hcov hw
  · have hsealed : ¬∃ r', s.frames.get? f = some r' ∧ r'.ledger.phase = .writable := by
      rintro ⟨r', hr', hw⟩
      obtain ⟨r, hr, hcov⟩ := h.covers.frames.of_some hr'
      exact hwritable ⟨r, hr, hcov.phase.symm.trans hw⟩
    obtain ⟨_, hb⟩ := Option.ne_none_iff_exists'.1 (mt (hneeds b) hwritable)
    obtain ⟨_, hs⟩ := Option.ne_none_iff_exists'.1 (mt (hneeds s) hsealed)
    exact h.covers_of_events (after_refused hb) (after_refused hs)

private theorem covers_abortFrame (h : Lockstep b s) (error : ErrorValue) :
    (s.after (.abortFrame f position error)).Covers (b.after (.abortFrame f position error)) := by
  refine h.covers_of_writable f (fun a href => ?_) fun r r' hr hr' hcov hw => ?_
  · obtain ⟨r, hr, -, hw⟩ := Frames.refusal?_eq_none.1 href
    exact ⟨r, hr, by simpa using hw⟩
  · have hw' := hcov.phase.trans hw
    obtain ⟨_, _, hb⟩ := run_abortFrame position error hr (h.wellFormed.1.live hr hw) hw
    obtain ⟨_, _, hs⟩ := run_abortFrame position error hr' (h.wellFormed.2.live hr' hw') hw'
    rw [after_ok (step_ok rfl hb), after_ok (step_ok rfl hs), h.callerPath_eq hr]
    exact ⟨by rw [h.covers.stack], h.covers.frames.update hr hr' (hcov.failed error),
      h.covers.cache⟩

/-- A call is kept in both analyses, or in neither. -/
private theorem cache_keepIn {frames frames' : Frames} {p p' : Partition} {c c' : Cache}
    (h : frames.CoveredBy frames') (hl : frames.Linked) (hl' : frames'.Linked)
    (hroot : frames.Rooted) (hr : frames.get? f = some r)
    (hc : ∀ signature, Option.Rel CachedCall.CoveredBy (c.get? ⟨p, signature⟩)
      (c'.get? ⟨p', signature⟩)) (signature : Signature) :
    Option.Rel CachedCall.CoveredBy ((frames.keepIn p c f).get? ⟨p, signature⟩)
      ((frames'.keepIn p' c' f).get? ⟨p', signature⟩) := by
  obtain ⟨r', hr', hcov⟩ := h.exists_of_some hr
  by_cases hk : frames.Keeps f r
  · have hk' : frames'.Keeps f r' :=
      ⟨hr', hcov.sameCall.isEntry.trans hk.isEntry, hcov.aborted.trans hk.aborted⟩
    rw [Frames.keepIn_of_keeps hk, Frames.keepIn_of_keeps hk', Cache.get?_insert, Cache.get?_insert,
      hcov.sameCall.signature]
    by_cases hs : signature = r.signature
    · simp only [hs, if_true]
      exact .some (h.callOf hl hl' hroot hr hr')
    · simpa [hs] using hc signature
  · have hk' : ∀ q', ¬frames'.Keeps f q' := by
      intro q' hq'
      obtain rfl := Option.some.inj (hr'.symm.trans hq'.get?)
      exact hk ⟨hr, hcov.sameCall.isEntry.symm.trans hq'.isEntry,
        hcov.aborted.symm.trans hq'.aborted⟩
    rw [Frames.keepIn_of_not_keeps hk', Frames.keepIn_of_not_keeps fun q hq =>
      hk (Option.some.inj (hr.symm.trans hq.get?) ▸ hq)]
    exact hc signature

private theorem covers_finishFrame (h : Lockstep b s) (result : Ty) (body : List Instruction) :
    (s.after (.finishFrame f result body)).Covers (b.after (.finishFrame f result body)) := by
  refine h.covers_of_writable f (fun a href => ?_) fun r r' hr hr' hcov hw => ?_
  · obtain ⟨r, hr, -, hw⟩ := Frames.refusal?_eq_none.1 href
    exact ⟨r, hr, by simpa using hw⟩
  · have hw' := hcov.phase.trans hw
    obtain ⟨_, hb⟩ := run_finishFrame result body hr (h.wellFormed.1.live hr hw) hw
    obtain ⟨_, hs⟩ := run_finishFrame result body hr' (h.wellFormed.2.live hr' hw') hw'
    have hroot := h.rooted.after (.finishFrame f result body)
    have hl' := (h.wellFormed.2.after (.finishFrame f result body)).linked
    rw [after_ok (step_ok rfl hb)] at hroot ⊢
    rw [after_ok (step_ok rfl hs)] at hl' ⊢
    -- The frame was never restored, so that every serious report in it is at its own statement.
    have hown := h.own hr' hw'
    have hfinished := hcov.finished (b.frames.callerPath f) result body
      (fun σ hσ => (hown σ hσ).kind_ne)
      fun σ hσ error place hf => h.callerPath_eq hr ▸ (hown σ hσ).path_of_serious hf
    rw [← h.basic, ← h.sound] at hfinished
    rw [h.callerPath_eq hr] at hl' ⊢
    have hframes := h.covers.frames.update hr hr' hfinished
    exact ⟨by rw [h.covers.stack], hframes, cache_keepIn hframes hroot.wellFormed.linked hl'
      hroot.frames (Frames.get?_update_self hr _) h.covers.cache⟩

private theorem covers_after (h : Lockstep b s) (hop : op.Analyzes) :
    (s.after op).Covers (b.after op) := by
  cases op with
  | enterEntry signature => exact h.covers_enterEntry signature
  | enterCall signature site => exact h.covers_enterCall signature site
  | abortFrame f position error => exact h.covers_abortFrame error
  | finishFrame f result body => exact h.covers_finishFrame result body
  | dispatchCall => exact h.covers_dispatchCall
  | resolveCall | queryReturnType | readGlobal | evaluateCondition | evaluateRaise
  | evaluateIntrinsic => exact h.covers_observing hop rfl
  | publishResult | askSignature | askResult | askPhase | askReports | freeze => exact hop.elim

theorem after (h : Lockstep b s) (hop : op.Analyzes) : Lockstep (b.after op) (s.after op) where
  basic := by rw [strictness, h.wellFormed.1.config_after op, ← strictness, h.basic]
  sound := by rw [strictness, h.wellFormed.2.config_after op, ← strictness, h.sound]
  rooted := h.rooted.after op
  kept := h.kept.after op
  own := h.wellFormed.2.writableOwn_after h.own op
  agree := h.agree.elim fun _ hF => h.kept.raisesAgree_after hF op
  covers := h.covers_after hop

/-- Two analyses that start with nothing kept. -/
theorem start {basic sound : Config} (hb : basic.policy.strictness = .basic)
    (hs : sound.policy.strictness = .sound) : Lockstep { config := basic } { config := sound } where
  basic := hb
  sound := hs
  rooted := .start basic fun _ _ hk => by simp at hk
  kept := .start sound (fun _ _ hk => by simp at hk) (fun _ _ hk => by simp at hk)
    fun _ _ hk => by simp at hk
  own _ _ hr := by simp [Frames.get?] at hr
  agree := ⟨fun _ => .uncaughtException [], .start sound _⟩
  covers := ⟨rfl, .nil, fun _ => by simp⟩

theorem run (h : Lockstep b s) {ops : List Operation} (hops : ∀ op ∈ ops, op.Analyzes) :
    Lockstep (b.run ops) (s.run ops) := by
  induction ops generalizing b s with
  | nil => exact h
  | cons op ops ih =>
    exact ih (h.after (hops op List.mem_cons_self)) fun op' hop' =>
      hops op' (List.mem_cons_of_mem op hop')

end Lockstep

end Analysis

namespace Session

/-- After the same operations, in the end maybe followed by the freeze: the stacks are the same, the
frames of the two policies differ in their reports only, and whatever is reported under the basic
policy is reported under the sound one. That is by a report of the same kind with the same path, but
for uncaught raises: each raise is listed for the same call, or is reported as serious itself. -/
theorem sound_covers_basic {basic sound : Config} (hbasic : basic.policy.strictness = .basic)
    (hsound : sound.policy.strictness = .sound) {ops ending : List Operation}
    (hops : ∀ op ∈ ops, op.Analyzes) (hending : ending <+: [.freeze]) :
    let b := (({} : Session).analysis basic).run (ops ++ ending)
    let s := (({} : Session).analysis sound).run (ops ++ ending)
    s.stack = b.stack ∧ s.frames.length = b.frames.length ∧
    ∀ f r, b.frames.get? f = some r → ∃ r', s.frames.get? f = some r' ∧
      (r'.signature = r.signature ∧ r'.site = r.site ∧ r'.isEntry = r.isEntry ∧
        r'.depth = r.depth ∧ r'.result = r.result ∧ r'.aborted = r.aborted ∧
        r'.ledger.phase = r.ledger.phase) ∧
      (∀ ρ ∈ r.ledger.reports, ρ.kind ≠ .uncaughtException →
        ∃ σ ∈ r'.ledger.reports, σ.kind = ρ.kind ∧ σ.path = ρ.path) ∧
      ∀ ρ ∈ r.ledger.reports, ∀ raises, ρ.finding = .uncaughtException raises → ∀ site ∈ raises,
        (∃ σ ∈ r'.ledger.reports, ∃ raises' position, σ.finding = .uncaughtException raises' ∧
          site ∈ raises' ∧ σ.path = ρ.path.endingAt position) ∨
        ∃ σ ∈ r'.ledger.reports, ∃ error, σ.finding = .seriousException error site.position ∧
          σ.path = ρ.path.endingAt site.position := by
  intro b s
  have hcovers : s.Covers b := by
    have hlockstep := (Analysis.Lockstep.start hbasic hsound).run hops
    rcases List.prefix_cons_iff.1 hending with rfl | ⟨rest, rfl, hrest⟩
    · simp only [b, s, List.append_nil]
      exact hlockstep.covers
    · obtain rfl := List.prefix_nil.1 hrest
      simp only [b, s, Analysis.run_append]
      exact hlockstep.covers.freeze
  refine ⟨hcovers.stack, hcovers.frames.length_eq, fun f r hr => ?_⟩
  obtain ⟨r', hr', hcov⟩ := hcovers.frames.exists_of_some hr
  obtain ⟨hsignature, hsite, hentry, hdepth⟩ := hcov.sameCall
  exact ⟨r', hr',
    ⟨hsignature, hsite, hentry, hdepth, hcov.result, hcov.aborted, hcov.phase⟩,
    fun ρ hρ => (hcov.reports ρ hρ).other, fun ρ hρ => (hcov.reports ρ hρ).raises⟩

/-- The policies do not find the same in a condition, nor in a callee that raises twice, which is
entered again after it was finished. A condition in the finished callee is refused by one of them.
-/
def seriousRestored : List Operation :=
  [.enterEntry ⟨"main", []⟩,
   .evaluateCondition ⟨0⟩ ⟨"m.jl", 1⟩ (.union [.concrete ⟨"Int64", []⟩, .abstract "Integer" true]),
   .enterCall ⟨"helper", [.abstract "Integer" false]⟩ ⟨⟨0⟩, ⟨"m.jl", 2⟩⟩,
   .evaluateRaise ⟨1⟩ ⟨"m.jl", 10⟩ (.const (.error ⟨"MethodError", "no method matching"⟩)),
   .finishFrame ⟨1⟩ .bottom [.raise ⟨"m.jl", 10⟩ "throw(err)", .raise ⟨"m.jl", 11⟩ "error(x)"],
   .evaluateCondition ⟨1⟩ ⟨"m.jl", 12⟩ (.concrete ⟨"Int64", []⟩),
   .enterCall ⟨"helper", [.abstract "Integer" false]⟩ ⟨⟨0⟩, ⟨"m.jl", 3⟩⟩]

theorem sound_covers_basic_seriousRestored :
    let b := (({} : Session).analysis {}).run (seriousRestored ++ [.freeze])
    let s := (({} : Session).analysis { policy := .sound }).run (seriousRestored ++ [.freeze])
    (∀ op ∈ seriousRestored, op.Analyzes) ∧ s.stack = b.stack ∧
      (∃ r r', b.frames.get? ⟨0⟩ = some r ∧ s.frames.get? ⟨0⟩ = some r' ∧
        ∃ ρ ∈ r.ledger.reports, ρ.kind = .nonBooleanCond ∧
          ∃ σ ∈ r'.ledger.reports, σ.kind = ρ.kind ∧ σ.path = ρ.path) ∧
      ∃ r r', b.frames.get? ⟨2⟩ = some r ∧ s.frames.get? ⟨2⟩ = some r' ∧
        r'.ledger.phase = r.ledger.phase ∧ ∃ ρ ∈ r.ledger.reports, ∃ raises,
          ρ.finding = .uncaughtException raises ∧ raises.length = 2 ∧
          ∀ site ∈ raises, Report.RaiseCovered r'.ledger.reports ρ.path site := by
  have hbasic : Policy.strictness ({} : Config).policy = .basic := rfl
  have hsound : Policy.strictness ({ policy := .sound } : Config).policy = .sound := rfl
  have hops : ∀ op ∈ seriousRestored, op.Analyzes := by decide
  obtain ⟨hstack, -, hframes⟩ :=
    sound_covers_basic hbasic hsound hops (List.prefix_refl [Operation.freeze])
  refine ⟨hops, hstack, ?_, ?_⟩
  · obtain ⟨r, hr, ρ, hρ, hkind⟩ : ∃ r, ((({} : Session).analysis {}).run
        (seriousRestored ++ [.freeze])).frames.get? ⟨0⟩ = some r ∧
          ∃ ρ ∈ r.ledger.reports, ρ.kind = .nonBooleanCond :=
      ⟨_, rfl, _, List.mem_cons_self, rfl⟩
    obtain ⟨r', hr', -, hother, -⟩ := hframes ⟨0⟩ r hr
    exact ⟨r, r', hr, hr', ρ, hρ, hkind, hother ρ hρ (by rw [hkind]; decide)⟩
  · obtain ⟨r, hr, ρ, hρ, raises, hfinding, hlength⟩ : ∃ r, ((({} : Session).analysis {}).run
        (seriousRestored ++ [.freeze])).frames.get? ⟨2⟩ = some r ∧
          ∃ ρ ∈ r.ledger.reports, ∃ raises, ρ.finding = .uncaughtException raises ∧
            raises.length = 2 :=
      ⟨_, rfl, _, List.mem_cons_self, _, rfl, rfl⟩
    obtain ⟨r', hr', ⟨-, -, -, -, -, -, hphase⟩, -, hraises⟩ := hframes ⟨2⟩ r hr
    exact ⟨r, r', hr, hr', hphase, ρ, hρ, raises, hfinding, hlength,
      hraises ρ hρ raises hfinding⟩

end Session

end FrameAudit
