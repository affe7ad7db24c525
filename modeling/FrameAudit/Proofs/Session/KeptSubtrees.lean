import FrameAudit.Proofs.Analysis.Coherence
import FrameAudit.Proofs.Session.FrameHistory
import FrameAudit.Proofs.Session.RootedPaths

/-! # Keeping and restoring the frames beneath a call

A finished call is kept with the reports of its frame and of all frames beneath it, cut where the
frame stands, so that nothing is lost: the callers in front give the reports back. A frame that is
filled from the cache holds the kept reports behind its own callers, repetitions left out; and if it
is kept again, the same reports are kept (`Session.kept_then_restored`). -/

namespace FrameAudit

theorem Report.map_below_zero (reports : List Report) : reports.map (·.below 0) = reports :=
  List.map_id _

namespace Frames

variable {frames : Frames} {f g n : FrameId} {r q : Frame} {call : CachedCall}

/-- The call is kept with all reports of the frame and of the frames beneath it, in the order of
the frames, each seen from the frame. The callers of the frame in front are what was cut off. -/
structure KeptAs (frames : Frames) (f : FrameId) (r : Frame) (call : CachedCall) : Prop where
  result : call.result = r.result
  reports : call.reports = frames.reportsWhere (fun g => g = f ∨ Beneath frames g f) r.depth
  rebased : call.reports.map (·.rebase (frames.callerPath f)) =
    frames.reportsWhere (fun g => g = f ∨ Beneath frames g f) 0

/-- The frame has the result of the call and its reports with the callers of the frame in front, of
those that say the same only the first. -/
structure FilledFrom (frames : Frames) (n : FrameId) (q : Frame) (call : CachedCall) : Prop where
  get? : frames.get? n = some q
  result : q.result = call.result
  ledger : q.ledger = ⟨(call.reports.map (·.rebase (frames.callerPath n))).eraseDupsBy
    fun a b => a.Duplicates b, .settled⟩

/-- The reports at and beneath a frame lead through its callers. -/
theorem Rooted.callerPath_isPrefix (h : Rooted frames) (hl : Linked frames)
    (hr : frames.get? f = some r) (hg : g = f ∨ Beneath frames g f) {q : Frame}
    (hq : frames.get? g = some q) : ∀ ρ ∈ q.ledger.reports, frames.callerPath f <+: ρ.path := by
  intro ρ hρ
  obtain ⟨rest, -, hpath⟩ := h hq ρ hρ
  rw [hpath]
  rcases hg with rfl | hb
  · exact List.prefix_append _ _
  · obtain ⟨steps, -, heq⟩ := hb.callerPath_eq hl hr
    rw [heq, List.append_assoc]
    exact List.prefix_append _ _

theorem Rooted.keptAs_callOf (h : Rooted frames) (hl : Linked frames)
    (hr : frames.get? f = some r) : frames.KeptAs f r (frames.callOf f r) := by
  have hreports := hl.subtreeReports_eq f r.depth
  refine ⟨rfl, hreports, ?_⟩
  change (frames.subtreeReports f r.depth).map _ = _
  rw [hreports, reportsWhere, reportsWhere, List.map_flatMap]
  -- frame by frame, since the callers of the frame lead to everything beneath it
  refine List.flatMap_congr fun i hi => ?_
  by_cases hg : (⟨i⟩ : FrameId) = f ∨ Beneath frames ⟨i⟩ f
  · have hq := List.getElem?_eq_getElem (List.mem_range.1 hi)
    rw [if_pos hg, if_pos hg, ledgerReports_of_some hq, Report.map_below_zero,
      ← hl.length_callerPath hr]
    exact Report.map_rebase_below (h.callerPath_isPrefix hl hr hg hq)
  · rw [if_neg hg, if_neg hg, List.map_nil]

private theorem flatMap_range_ite {α : Type} {n k : Nat} (hk : k < n) (l : List α) :
    (List.range n).flatMap (fun i => if i = k then l else []) = l := by
  induction n with
  | zero => exact absurd hk (Nat.not_lt_zero k)
  | succ n ih =>
    rw [List.range_succ, List.flatMap_append, List.flatMap_singleton]
    rcases Nat.lt_succ_iff_lt_or_eq.1 hk with hk | rfl
    · rw [ih hk, if_neg (Nat.ne_of_gt hk), List.append_nil]
    · have hnil : (List.range k).flatMap (fun i => if i = k then l else []) = [] :=
        List.flatMap_eq_nil_iff.2 fun i hi => if_neg (Nat.ne_of_lt (List.mem_range.1 hi))
      rw [hnil, if_pos rfl, List.nil_append]

/-- Beneath a frame without callees there are only its own reports. -/
theorem Linked.subtreeReports_of_leaf (h : Linked frames) (hr : frames.get? f = some r)
    (hleaf : ∀ g, ¬Beneath frames g f) (depth : Nat) :
    frames.subtreeReports f depth = r.ledger.reports.map (·.below depth) := by
  have hself : ∀ i, ((⟨i⟩ : FrameId) = f ∨ Beneath frames ⟨i⟩ f) ↔ i = f.index := by
    intro i
    cases f
    simp [hleaf]
  rw [h.subtreeReports_eq, reportsWhere]
  refine Eq.trans (List.flatMap_congr fun i _ => ?_) (flatMap_range_ite (index_lt_length hr) _)
  by_cases hi : i = f.index
  · subst hi
    rw [if_pos ((hself _).2 rfl), if_pos rfl, ledgerReports_of_some (f := ⟨f.index⟩) hr]
  · rw [if_neg (mt (hself i).1 hi), if_neg hi]

/-- A change of a frame puts no frames beneath another. -/
theorem Linked.beneath_of_update (h : Linked frames) {change : Frame → Frame}
    (hsame : ∀ r : Frame, r.SameCall (change r)) (hb : Beneath (frames.update f change) g n) :
    Beneath frames g n := by
  obtain ⟨q', hq'⟩ := hb.exists_frame
  have hlt : g.index < frames.length := length_update frames f change ▸ index_lt_length hq'
  exact ((extends_update frames f hsame).beneath_iff h (h.update f hsame)
    (List.getElem?_eq_getElem hlt)).1 hb

theorem Linked.filledFrom_restored {site : CallSite} {c : Frame} (h : Linked frames)
    (hc : frames.get? site.caller = some c) (signature : Signature) (call : CachedCall) :
    FilledFrom (frames ++ [(Frame.callee signature site (c.depth + 1)).restored
        (frames.callersAt site c) call]) ⟨frames.length⟩
      ((Frame.callee signature site (c.depth + 1)).restored (frames.callersAt site c) call)
      call := by
  refine ⟨get?_concat_length .., rfl, ?_⟩
  rw [h.callerPath_opened hc rfl rfl rfl, ← Ledger.distinct_eq_eraseDupsBy]
  rfl

/-- Seen from its frame, what was restored is what was kept, without repetitions. -/
theorem FilledFrom.map_below (h : frames.FilledFrom n q call) (hl : Linked frames) :
    q.ledger.reports.map (·.below q.depth) =
      call.reports.eraseDupsBy fun a b => a.Duplicates b := by
  rw [h.ledger, eraseDupsBy_map, List.map_map, ← hl.length_callerPath h.get?]
  simp only [Report.rebase_duplicates_iff, Function.comp_def, Report.below_rebase, List.map_id']

/-- What would be kept of a restored frame later on, if its reports are the same and it has no
callees. -/
theorem FilledFrom.callOf_eq {later : Frames} {q' : Frame} (h : frames.FilledFrom n q call)
    (hl : Linked frames) (hl' : Linked later) (hq' : later.get? n = some q')
    (hsame : q.SameCall q') (hreports : q'.ledger.reports = q.ledger.reports)
    (hleaf : ∀ g, ¬Beneath later g n) :
    later.callOf n q' = ⟨q'.result, call.reports.eraseDupsBy fun a b => a.Duplicates b⟩ := by
  rw [callOf, hl'.subtreeReports_of_leaf hq' hleaf, hreports, hsame.depth, h.map_below hl]

end Frames

namespace Analysis

variable {s s' : Analysis} {answer : Answer} {f n : FrameId} {r q q' c : Frame}
  {result refined : Ty} {body : List Instruction} {signature : Signature} {site : CallSite}
  {call : CachedCall}

theorem WellFormed.runFrom (h : WellFormed s) (hrun : RunFrom s s') : WellFormed s' := by
  induction hrun with
  | start => exact h
  | step op _ _ ih => exact ih.after op

/-- A finished frame that is no entry is kept with everything beneath it. -/
theorem Rooted.kept_finished (h : Rooted s) (hr : s.frames.get? f = some r)
    (he : r.isEntry = false) (hstep : s.step (.finishFrame f result body) = .ok answer s') :
    ∃ r' call, s'.frames.get? f = some r' ∧ r'.result = result ∧
      s'.cache.get? ⟨s.partition, r.signature⟩ = some call ∧ s'.frames.KeptAs f r' call := by
  obtain ⟨q, hq, hlive, hw⟩ := Frames.refusal?_eq_none.1 (refusal?_of_step_ok hstep)
  obtain rfl := Option.some.inj (hr.symm.trans hq)
  replace hw : r.ledger.phase = .writable := by simpa using hw
  have hrooted : Rooted s' := after_ok hstep ▸ h.after (.finishFrame f result body)
  obtain ⟨events, hrun⟩ := run_finishFrame result body hr hlive hw
  have hok : s.step (.finishFrame f result body) = .ok (.body body) _ := step_ok rfl hrun
  injection hstep.symm.trans hok with _ hstate
  subst hstate
  let change := Frame.finished s.strictness (s.frames.callerPath f) result body
  have hsame := Frame.sameCall_finished s.strictness (s.frames.callerPath f) result body
  have hkeeps : (s.frames.update f change).Keeps f (change r) :=
    Frames.Keeps.update ⟨hr, he, hlive⟩ hsame (Frame.aborted_finished ..)
  have hkept := Frames.get?_keepIn_of_keeps (p := s.partition) (c := s.cache) hkeeps
  rw [(hsame r).signature] at hkept
  exact ⟨change r, _, hkeeps.get?, Frame.result_finished .., hkept,
    hrooted.frames.keptAs_callOf hrooted.wellFormed.linked hkeeps.get?⟩

/-- A call that is kept and not being analysed gets a frame from the cache, which is never on the
stack. -/
theorem WellFormed.enterCall_restored (h : WellFormed s) (hc : s.frames.get? site.caller = some c)
    (ha : c.aborted = false) (hon : s.onStack? signature = none)
    (hk : s.cache.get? ⟨s.partition, signature⟩ = some call) :
    ∃ s' q, s.step (.enterCall signature site) =
        .ok (.entered (.cached s.nextFrame call.result)) s' ∧
      s'.frames.FilledFrom s.nextFrame q call ∧ q.signature = signature ∧ q.isEntry = false ∧
      s'.stack = s.stack ∧ s.nextFrame ∉ s'.stack ∧ s'.partition = s.partition := by
  obtain ⟨events, hrun⟩ := run_enterCall_restored h.linked hc ha hon hk
  refine ⟨_, _, step_ok rfl hrun, h.linked.filledFrom_restored hc signature call, rfl, rfl, rfl, ?_,
    rfl⟩
  intro hmem
  obtain ⟨r, hr, -⟩ := (h.mem_stack _).1 hmem
  exact Nat.lt_irrefl _ (Frames.index_lt_length hr)

/-- Publishing a result that retracts nothing leaves the reports of a closed frame as they are and
keeps its call. -/
theorem publishResult_unretracted (hl : s.frames.Linked) (hq : s.frames.get? n = some q)
    (hw : q.ledger.phase ≠ .writable)
    (hstep : s.step (.publishResult n refined) = .ok (.retracted 0) s') :
    q.aborted = false ∧ (q.published s.strictness refined).ledger.reports = q.ledger.reports ∧
      s'.cache = (s.frames.update n (Frame.published s.strictness refined)).keepIn s.partition
        s.cache n := by
  obtain ⟨p, hp, hlive, hf⟩ := Frames.refusal?_eq_none.1 (refusal?_of_step_ok hstep)
  obtain rfl := Option.some.inj (hq.symm.trans hp)
  replace hf : q.ledger.phase ≠ .frozen := by simpa using hf
  have hsettled : q.ledger.phase = .settled := by
    cases hphase : q.ledger.phase with
    | writable => exact absurd hphase hw
    | settled => rfl
    | frozen => exact absurd hphase hf
  obtain ⟨events, hrun⟩ := run_publishResult refined hl hq hlive hf
  have hok : s.step (.publishResult n refined) = .ok (.retracted _) _ := step_ok rfl hrun
  injection hstep.symm.trans hok with hanswer hstate
  have hnone : ¬0 < retractedBy s.strictness refined q := by
    rw [← Answer.retracted.inj hanswer]
    exact Nat.lt_irrefl 0
  refine ⟨hlive, Nesting.Coherent.retracted_reports_eq hnone, ?_⟩
  rw [hstate, Frames.keptAnew, if_pos hsettled, if_neg hnone]
  rfl

/-- Publishing a result for a frame that was restored keeps the restored reports, if the frame still
has them, has no frames beneath it and loses none of its reports. -/
theorem WellFormed.kept_again (h : WellFormed s) (hfilled : s.frames.FilledFrom n q call)
    (he : q.isEntry = false) (later : List Operation)
    (hq' : (s.run later).frames.get? n = some q') (hreports : q'.ledger.reports = q.ledger.reports)
    (hleaf : ∀ g, ¬(s.run later).frames.Beneath g n)
    (hstep : (s.run later).step (.publishResult n refined) = .ok (.retracted 0) s') :
    s'.cache.get? ⟨s.partition, q.signature⟩ =
      some ⟨refined, call.reports.eraseDupsBy fun a b => a.Duplicates b⟩ := by
  have hl := (h.run later).linked
  obtain ⟨q'', hq'', hadv⟩ := h.advance_run later n q hfilled.get?
  obtain rfl := Option.some.inj (hq'.symm.trans hq'')
  -- a restored frame is closed from the start
  have hw : q'.ledger.phase ≠ .writable := by
    intro hw
    have hold := hadv.writable_of_writable hw
    simp [hfilled.ledger] at hold
  obtain ⟨hlive, hsameReports, hcache⟩ := publishResult_unretracted hl hq' hw hstep
  let change := Frame.published (s.run later).strictness refined
  have hchange := Frame.sameCall_published (s.run later).strictness refined
  have hsame : q.SameCall (change q') := hadv.sameCall.trans (hchange q')
  have hkeeps : ((s.run later).frames.update n change).Keeps n (change q') :=
    ⟨Frames.get?_update_self hq' change, hsame.isEntry.trans he,
      (Frame.aborted_published ..).trans hlive⟩
  have hcall : ((s.run later).frames.update n change).callOf n (change q') = _ :=
    hfilled.callOf_eq h.linked (hl.update n hchange) hkeeps.get? hsame
      (hsameReports.trans hreports) fun g hg => hleaf g (hl.beneath_of_update hchange hg)
  have hpartition : (s.run later).partition = s.partition := by
    rw [partition, h.config_run, partition]
  rw [hcache, hpartition, ← hsame.signature, Frames.get?_keepIn_of_keeps hkeeps, hcall]
  rfl

end Analysis

namespace Session

open Analysis (RunFrom)

variable {s : Session} {config : Config} {a a' : Analysis} {f : FrameId} {r : Frame} {result : Ty}
  {body : List Instruction} {answer : Answer}

/-- Finishing a frame that is no entry keeps its call with everything beneath it. Whatever analysis
with the same partition finds that call, at whatever depth, gets it back in a new frame that is
never on the stack; and if this frame is kept again later, with the same reports and no frames
beneath it, the kept reports are the same up to repetitions. -/
theorem kept_then_restored (hs : s.Reachable) (ha : RunFrom (s.analysis config) a)
    (hr : a.frames.get? f = some r) (he : r.isEntry = false)
    (hfinish : a.step (.finishFrame f result body) = .ok answer a') :
    ∃ r' call, a'.frames.get? f = some r' ∧ r'.result = result ∧
      a'.cache.get? ⟨a.partition, r.signature⟩ = some call ∧ a'.frames.KeptAs f r' call ∧
      ∀ config' cache' b, RunFrom { config := config', cache := cache' } b →
        b.partition = a.partition → b.cache.get? ⟨a.partition, r.signature⟩ = some call →
        ∀ site c, b.frames.get? site.caller = some c → c.aborted = false →
        (∀ g ∈ b.stack, ∀ q, b.frames.get? g = some q → q.signature ≠ r.signature) →
        ∃ b' q, b.step (.enterCall r.signature site) =
            .ok (.entered (.cached b.nextFrame call.result)) b' ∧
          b'.frames.FilledFrom b.nextFrame q call ∧ b'.stack = b.stack ∧
          b.nextFrame ∉ b'.stack ∧
          ∀ later q' refined d, (b'.run later).frames.get? b.nextFrame = some q' →
            q'.ledger.reports = q.ledger.reports →
            (∀ g, ¬(b'.run later).frames.Beneath g b.nextFrame) →
            (b'.run later).step (.publishResult b.nextFrame refined) = .ok (.retracted 0) d →
            d.cache.get? ⟨a.partition, r.signature⟩ =
              some ⟨refined, call.reports.eraseDupsBy fun x y => x.Duplicates y⟩ := by
  have hrooted : a.Rooted := rooted_invariant.analysis hs ha
  obtain ⟨r', call, hr', hresult, hkept, hcall⟩ := hrooted.kept_finished hr he hfinish
  refine ⟨r', call, hr', hresult, hkept, hcall, ?_⟩
  intro config' cache' b hb hpartition hk site c hc hlive hon
  have hwell : b.WellFormed := (Analysis.WellFormed.start config' cache').runFrom hb
  rw [← hpartition] at hk
  obtain ⟨b', q, hstep, hfilled, hsignature, hentry, hstack, hoff, hpartition'⟩ :=
    hwell.enterCall_restored hc hlive (Analysis.onStack?_eq_none.2 hon) hk
  have hwell' : b'.WellFormed := Analysis.after_ok hstep ▸ hwell.after _
  refine ⟨b', q, hstep, hfilled, hstack, hoff, fun later q' refined d hq' hreports hleaf hd => ?_⟩
  have hagain := hwell'.kept_again hfilled hentry later hq' hreports hleaf hd
  rwa [hsignature, hpartition', hpartition] at hagain

/-- `outer` calls `inner` twice at one place. The second call is restored. -/
def repeatedCallee : Analysis :=
  (({} : Session).analysis {}).run
    [.enterEntry ⟨"main", []⟩,
     .enterCall ⟨"outer", []⟩ ⟨⟨0⟩, ⟨"m.jl", 1⟩⟩,
     .enterCall ⟨"inner", []⟩ ⟨⟨1⟩, ⟨"m.jl", 10⟩⟩,
     .finishFrame ⟨2⟩ .bottom [.raise ⟨"m.jl", 20⟩ "error(x)"],
     .enterCall ⟨"inner", []⟩ ⟨⟨1⟩, ⟨"m.jl", 10⟩⟩]

/-- Another analysis starts when `outer` is finished. -/
def startedLater : Analysis :=
  ({ config := {}, cache := (repeatedCallee.after (.finishFrame ⟨1⟩ .any [])).cache } :
    Analysis).run [.enterEntry ⟨"test", []⟩]

theorem kept_then_restored_repeatedCallee :
    let a' := repeatedCallee.after (.finishFrame ⟨1⟩ .any [])
    let b' := startedLater.after (.enterCall ⟨"outer", []⟩ ⟨⟨0⟩, ⟨"t.jl", 5⟩⟩)
    let d := b'.after (.publishResult ⟨1⟩ .bottom)
    let slot : Cache.Slot := ⟨repeatedCallee.partition, ⟨"outer", []⟩⟩
    let ρ : Report := ⟨[⟨⟨"outer", []⟩, ⟨"m.jl", 10⟩⟩, ⟨⟨"inner", []⟩, ⟨"m.jl", 20⟩⟩],
      .uncaughtException [⟨⟨"m.jl", 20⟩, "error(x)"⟩]⟩
    RunFrom (({} : Session).analysis {}) repeatedCallee ∧
      a'.cache.get? slot = some ⟨.any, [ρ, ρ]⟩ ∧
      (∃ q, b'.frames.get? ⟨1⟩ = some q ∧ q.result = .any ∧
        q.ledger = ⟨[ρ.rebase [⟨⟨"test", []⟩, ⟨"t.jl", 5⟩⟩]], .settled⟩) ∧
      d.cache.get? slot = some ⟨.bottom, [ρ]⟩ := by
  intro a' b' d slot ρ
  have ha : RunFrom (({} : Session).analysis {}) repeatedCallee := .run .start fun _ _ _ => trivial
  have hb : RunFrom { config := {}, cache := a'.cache } startedLater :=
    .run .start fun _ _ _ => trivial
  have hkept : a'.cache.get? slot = some ⟨.any, [ρ, ρ]⟩ := by decide +kernel
  have hon : ∀ g ∈ startedLater.stack, ∀ q, startedLater.frames.get? g = some q →
      q.signature ≠ ⟨"outer", []⟩ := Analysis.onStack?_eq_none.1 (by rfl)
  have hfinish : repeatedCallee.step (.finishFrame ⟨1⟩ .any []) = .ok (.body []) a' := rfl
  obtain ⟨r, call, -, -, hcall, -, hrestored⟩ :=
    kept_then_restored (f := ⟨1⟩) .start ha rfl rfl hfinish
  obtain rfl : _ = call := Option.some.inj (hkept.symm.trans hcall)
  obtain ⟨b₁, q, hstep, hfilled, -, -, hagain⟩ :=
    hrestored _ _ startedLater hb rfl hkept ⟨⟨0⟩, ⟨"t.jl", 5⟩⟩ _ rfl rfl hon
  obtain rfl : b' = b₁ := Analysis.after_ok hstep
  have hwell : b'.WellFormed := ((Analysis.WellFormed.start {} a'.cache).runFrom hb).after _
  have hleaf : ∀ g, ¬b'.frames.Beneath g ⟨1⟩ := by
    intro g hg
    obtain ⟨r, hr⟩ := hg.exists_frame
    have hlength : b'.frames.length = 2 := by decide +kernel
    have hlt := Frames.index_lt_length hr
    have hgt := (hg.lt hwell.linked hr).1
    simp only at hgt
    omega
  refine ⟨ha, hkept, ⟨q, hfilled.get?, hfilled.result, ?_⟩, ?_⟩
  · exact hfilled.ledger.trans (by decide +kernel)
  · exact (hagain [] q .bottom d hfilled.get? rfl hleaf rfl).trans (by decide +kernel)

end Session

end FrameAudit
