import FrameAudit.Proofs.Analysis.History
import FrameAudit.Proofs.Session.Reachable

/-! # The forest of frames and the stack

Whatever is asked of an analysis, in whatever order, its frames form a forest in which callers are
older than their callees. So the way outwards from a frame, followed link by link and without a
bound (`Frames.Outward`), comes to an end and meets frames only; the callers of a frame, the frames
beneath another one and the callers that are kept anew are all read off it. The stack lists the
frames that take reports, and a signature comes back on it only with an entry. -/

namespace FrameAudit

namespace Frames

variable {frames : Frames} {f g : FrameId} {r : Frame} {steps : List (CallSite × Frame)}

/-- The way outwards from a frame: call sites, innermost first, each with the frame of the caller.
Every frame that is looked up is there, and the last one has no caller. -/
inductive Outward (frames : Frames) : FrameId → List (CallSite × Frame) → Prop where
  | stop {f : FrameId} {r : Frame} :
    frames.get? f = some r → r.site = none → Outward frames f []
  | next {f : FrameId} {r c : Frame} {site : CallSite} {steps : List (CallSite × Frame)} :
    frames.get? f = some r → r.site = some site → frames.get? site.caller = some c →
    Outward frames site.caller steps → Outward frames f ((site, c) :: steps)

theorem Linked.exists_outward (h : Linked frames) (hr : frames.get? f = some r) :
    ∃ steps, frames.Outward f steps := by
  refine h.callerInduction (P := fun f _ => ∃ steps, frames.Outward f steps) ?_ ?_ f r hr
  · intro f r hr hs
    exact ⟨[], .stop hr hs⟩
  · intro f r site c hr hs hc ih
    obtain ⟨steps, hsteps⟩ := ih
    exact ⟨_, .next hr hs hc hsteps⟩

namespace Outward

theorem get?_of_mem (h : frames.Outward f steps) :
    ∀ step ∈ steps, frames.get? step.1.caller = some step.2 := by
  induction h with
  | stop => exact fun _ hmem => absurd hmem List.not_mem_nil
  | next _ _ hc _ ih => exact List.forall_mem_cons.2 ⟨hc, ih⟩

theorem callSites_eq (h : frames.Outward f steps) (hl : Linked frames) :
    frames.callSites f = steps.map Prod.fst := by
  induction h with
  | stop hr hs => exact hl.callSites_entry hr hs
  | next hr hs _ _ ih => rw [hl.callSites_callee hr hs, ih, List.map_cons]

/-- The depth of a frame is the number of steps outwards. -/
theorem length_eq (h : frames.Outward f steps) (hl : Linked frames)
    (hr : frames.get? f = some r) : steps.length = r.depth := by
  induction h generalizing r with
  | stop hr' hs =>
    obtain rfl := Option.some.inj (hr.symm.trans hr')
    exact (hl.entry hr hs).2.symm
  | next hr' hs hc _ ih =>
    obtain rfl := Option.some.inj (hr.symm.trans hr')
    obtain ⟨-, -, c, hc', hd⟩ := hl.callee hr hs
    rw [List.length_cons, ih hc', hd]

theorem callerPath_eq (h : frames.Outward f steps) (hl : Linked frames) :
    frames.callerPath f =
      (steps.map fun step => ⟨step.2.signature, step.1.position⟩).reverse := by
  induction h with
  | stop hr hs => exact hl.callerPath_entry hr hs
  | next hr hs hc _ ih => rw [hl.callerPath_callee hr hs hc, ih, List.map_cons, List.reverse_cons]

theorem isBeneath_eq (h : frames.Outward f steps) (hl : Linked frames) (g : FrameId) :
    frames.isBeneath f g = steps.any fun step => step.1.caller = g := by
  rw [isBeneath, h.callSites_eq hl, List.any_map]
  rfl

theorem settledCallers_eq (h : frames.Outward f steps) (hl : Linked frames) :
    frames.settledCallers f =
      (steps.filter fun step => step.2.ledger.phase = .settled).map (·.1.caller) := by
  rw [settledCallers, h.callSites_eq hl, List.map_map, List.filter_map]
  refine congrArg _ (List.filter_congr fun step hstep => ?_)
  simp [h.get?_of_mem step hstep]

end Outward

/-- Changing a frame opens none. -/
theorem get?_update_of_none {change : Frame → Frame} (h : frames.get? g = none) :
    (frames.update f change).get? g = none := by
  rw [get?_update]
  split
  next hg => rw [← hg, h, Option.map_none]
  next => exact h

end Frames

namespace Analysis

variable {s : Analysis} {f g : FrameId} {r r' : Frame} {op : Operation}
  {res : EStateM.Result Fault Analysis Answer} {config : Config} {cache : Cache} {a : Analysis}

/-- A frame that was not there before is an entry, is filled from the cache, or is of a call that
was not on the stack. -/
theorem Step.opened_cases (h : Step s op res) (hnone : s.frames.get? g = none)
    (hg : (leaves res).frames.get? g = some r') :
    g = s.nextFrame ∧ (r'.isEntry = true ∨ r'.ledger.phase = .settled ∨
      s.onStack? r'.signature = none) := by
  have hlast : ∀ {c}, Frames.get? (s.frames ++ [c]) g = some r' → g = s.nextFrame ∧ r' = c := by
    intro c hc
    rcases Frames.get?_concat hc with ⟨hi, rfl⟩ | hold
    · obtain ⟨i⟩ := g
      exact ⟨congrArg FrameId.mk hi, rfl⟩
    · cases hnone.symm.trans hold
  cases h with
  | failed | answered => cases hnone.symm.trans hg
  | noted | aborted | finished | published =>
    cases (Frames.get?_update_of_none hnone).symm.trans hg
  | entry =>
    obtain ⟨hnext, rfl⟩ := hlast hg
    exact ⟨hnext, .inl rfl⟩
  | analyze _ _ _ _ _ _ hon _ =>
    obtain ⟨hnext, rfl⟩ := hlast hg
    exact ⟨hnext, .inr (.inr hon)⟩
  | restored =>
    obtain ⟨hnext, rfl⟩ := hlast hg
    exact ⟨hnext, .inr (.inl rfl)⟩
  | frozen =>
    rw [leaves, get?_freeze, hnone] at hg
    cases hg

/-- Of two frames that take reports and have the same signature, the later one is an entry. -/
def LaterIsEntry (s : Analysis) : Prop :=
  ∀ ⦃f g r r'⦄, s.frames.get? f = some r → s.frames.get? g = some r' →
    r.ledger.phase = .writable → r'.ledger.phase = .writable → r.signature = r'.signature →
    f.index < g.index → r'.isEntry = true

theorem LaterIsEntry.start (config : Config) (cache : Cache) : LaterIsEntry { config, cache } :=
  fun _ _ _ _ hf => by simp [Frames.get?] at hf

theorem LaterIsEntry.after (h : LaterIsEntry s) (hwell : WellFormed s) (op : Operation) :
    LaterIsEntry (s.after op) := by
  rw [after_eq]
  have hstep := step_cases hwell.linked op
  generalize s.step op = res at hstep
  -- a frame that was there and takes reports has taken them all along
  have hback : ∀ {f r r'}, s.frames.get? f = some r → (leaves res).frames.get? f = some r' →
      r'.ledger.phase = .writable → r.ledger.phase = .writable ∧ r.SameCall r' := by
    intro f r r' hr hr' hw
    obtain ⟨r'', hr'', hadv⟩ := hstep.advance f r hr
    obtain rfl := Option.some.inj (hr'.symm.trans hr'')
    exact ⟨hadv.writable_of_writable hw, hadv.sameCall⟩
  intro f g r r' hf hg hwf hwg hsig hlt
  have hold : f.index < s.frames.length → ∃ q, s.frames.get? f = some q :=
    fun h => ⟨_, List.getElem?_eq_getElem h⟩
  cases hq' : s.frames.get? g with
  | some q' =>
    obtain ⟨q, hq⟩ := hold (Nat.lt_trans hlt (Frames.index_lt_length hq'))
    obtain ⟨hw, hsame⟩ := hback hq hf hwf
    obtain ⟨hw', hsame'⟩ := hback hq' hg hwg
    rw [hsame'.isEntry]
    rw [hsame.signature, hsame'.signature] at hsig
    exact h hq hq' hw hw' hsig hlt
  | none =>
    obtain ⟨rfl, he | hsettled | hon⟩ := hstep.opened_cases hq' hg
    · exact he
    · cases hsettled.symm.trans hwg
    · obtain ⟨q, hq⟩ := hold hlt
      obtain ⟨hw, hsame⟩ := hback hq hf hwf
      have hne := onStack?_eq_none.1 hon f ((hwell.mem_stack f).2 ⟨q, hq, hw⟩) q hq
      exact absurd (hsame.signature.symm.trans hsig) hne

theorem forest_invariant : Session.Invariant (fun _ _ => True) (fun _ => True)
    fun a => a.WellFormed ∧ a.LaterIsEntry where
  empty := trivial
  start config cache _ := ⟨.start config cache, .start config cache⟩
  after op h _ := ⟨h.1.after op, h.2.after h.1 op⟩
  cache _ := trivial

/-- After any operations on any cache: entries are the frames without a caller and those of depth
0, and the caller of any other frame is older and one level above; the way outwards from a frame
comes to an end after as many steps as the frame is deep, and all that follows callers follows it;
the stack lists the frames that take reports in the order of their opening; and of two frames on it
with the same signature the later one is an entry. -/
theorem frame_forest_and_stack (ha : RunFrom { config, cache } a) :
    (∀ f r, a.frames.get? f = some r →
      (r.isEntry = true ↔ r.site = none) ∧ (r.site = none ↔ r.depth = 0) ∧
      (∀ site, r.site = some site → site.caller.index < f.index ∧
        ∃ c, a.frames.get? site.caller = some c ∧ r.depth = c.depth + 1) ∧
      (a.frames.callerPath f).length = r.depth ∧
      ∃ steps, a.frames.Outward f steps ∧ steps.length = r.depth ∧
        a.frames.callerPath f =
          (steps.map fun step => ⟨step.2.signature, step.1.position⟩).reverse ∧
        (∀ g, a.frames.isBeneath f g = steps.any fun step => step.1.caller = g) ∧
        ∃ events, (keepCallers f).run a = .ok () { a with
          cache := ((steps.filter fun step => step.2.ledger.phase = .settled).map
            (·.1.caller)).foldl (a.frames.keepIn a.partition) a.cache
          events }) ∧
    a.stack.Pairwise (·.index < ·.index) ∧
    (∀ f, f ∈ a.stack ↔ ∃ r, a.frames.get? f = some r ∧ r.ledger.phase = .writable) ∧
    (∀ f g r r', f ∈ a.stack → g ∈ a.stack → a.frames.get? f = some r →
      a.frames.get? g = some r' → r.signature = r'.signature → f.index < g.index →
      r'.isEntry = true) := by
  obtain ⟨hwell, hlater⟩ := forest_invariant.runBy ⟨.start config cache, .start config cache⟩ ha
  have hl := hwell.linked
  refine ⟨fun f r hr => ⟨hl.isEntry_iff hr, ⟨fun hs => (hl.entry hr hs).2, fun hd => ?_⟩,
    fun site hs => (hl.callee hr hs).2, hl.length_callerPath hr, ?_⟩, hwell.ascending,
    hwell.mem_stack, fun f g r r' hf hg hr hr' => ?_⟩
  · cases hs : r.site with
    | none => rfl
    | some site =>
      obtain ⟨-, -, c, -, hc⟩ := hl.callee hr hs
      omega
  · obtain ⟨steps, hsteps⟩ := hl.exists_outward hr
    obtain ⟨events, hrun⟩ := run_keepCallers hl hr
    rw [hsteps.settledCallers_eq hl] at hrun
    exact ⟨steps, hsteps, hsteps.length_eq hl hr, hsteps.callerPath_eq hl,
      hsteps.isBeneath_eq hl, events, hrun⟩
  · obtain ⟨q, hq, hw⟩ := (hwell.mem_stack f).1 hf
    obtain rfl := Option.some.inj (hr.symm.trans hq)
    obtain ⟨q', hq', hw'⟩ := (hwell.mem_stack g).1 hg
    obtain rfl := Option.some.inj (hr'.symm.trans hq')
    exact hlater hr hr' hw hw'

/-- After a freeze, a frame is finished before its callee, refuses to be finished again and makes
another call; then the signature of the callee is entered once more. -/
def outOfOrder : List Operation :=
  [.enterEntry ⟨"start", []⟩,
   .freeze,
   .enterEntry ⟨"main", []⟩,
   .enterCall ⟨"outer", []⟩ ⟨⟨1⟩, ⟨"m.jl", 1⟩⟩,
   .enterCall ⟨"inner", []⟩ ⟨⟨2⟩, ⟨"m.jl", 10⟩⟩,
   .finishFrame ⟨2⟩ .any [],
   .finishFrame ⟨2⟩ .any [],
   .enterCall ⟨"late", []⟩ ⟨⟨2⟩, ⟨"m.jl", 11⟩⟩,
   .enterEntry ⟨"inner", []⟩]

theorem frame_forest_and_stack_outOfOrder :
    let a := (({} : Session).analysis {}).run outOfOrder
    RunFrom (({} : Session).analysis {}) a ∧ a.stack = [⟨1⟩, ⟨3⟩, ⟨4⟩, ⟨5⟩] ∧
      (∃ r, a.frames.get? ⟨4⟩ = some r ∧ r.depth = 2 ∧ (a.frames.callerPath ⟨4⟩).length = r.depth ∧
        ∃ steps, a.frames.Outward ⟨4⟩ steps ∧ steps.length = r.depth ∧
          a.frames.isBeneath ⟨4⟩ ⟨2⟩ = steps.any fun step => step.1.caller = ⟨2⟩) ∧
      ∃ r r', a.frames.get? ⟨3⟩ = some r ∧ a.frames.get? ⟨5⟩ = some r' ∧
        r.signature = r'.signature ∧ r'.isEntry = true := by
  have ha : RunFrom (({} : Session).analysis {}) ((({} : Session).analysis {}).run outOfOrder) :=
    .run .start fun _ _ _ => trivial
  obtain ⟨hframes, -, -, hlater⟩ := frame_forest_and_stack ha
  refine ⟨ha, rfl, ?_, ?_⟩
  · obtain ⟨r, hr, hdepth⟩ : ∃ r, ((({} : Session).analysis {}).run
        outOfOrder).frames.get? ⟨4⟩ = some r ∧ r.depth = 2 := ⟨_, rfl, rfl⟩
    obtain ⟨-, -, -, hlength, steps, hsteps, hend, -, hbeneath, -⟩ := hframes ⟨4⟩ r hr
    exact ⟨r, hr, hdepth, hlength, steps, hsteps, hend, hbeneath ⟨2⟩⟩
  · obtain ⟨r, r', hr, hr', hsig⟩ : ∃ r r', ((({} : Session).analysis {}).run
          outOfOrder).frames.get? ⟨3⟩ = some r ∧
        ((({} : Session).analysis {}).run outOfOrder).frames.get? ⟨5⟩ = some r' ∧
        r.signature = r'.signature := ⟨_, _, rfl, rfl, rfl⟩
    have hentry := hlater ⟨3⟩ ⟨5⟩ r r' (by decide) (by decide) hr hr' hsig (by decide)
    exact ⟨r, r', hr, hr', hsig, hentry⟩

end Analysis

end FrameAudit
