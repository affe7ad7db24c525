import FrameAudit.Proofs.Recursion.Frames

/-! # The driver walks through the calls

Under the sound policy, what the driver of a table does is a walk through its calls, from what the
cache keeps before to what it keeps afterwards (`BehaviourTable.run_drive`). -/

namespace FrameAudit

theorem Analysis.onStack?_eq_some {s : Analysis} {signature : Signature} {f : FrameId} {r : Frame}
    (h : s.onStack? signature = some (f, r)) :
    f ∈ s.stack ∧ s.frames.get? f = some r ∧ r.signature = signature := by
  obtain ⟨g, hg, h⟩ := List.exists_of_findSome?_eq_some h
  cases hr : s.frames.get? g with
  | none =>
    rw [hr] at h
    cases h
  | some r' =>
    rw [hr] at h
    obtain ⟨hsig, h⟩ := Option.ite_none_right_eq_some.1 h
    cases h
    exact ⟨hg, hr, hsig⟩

namespace BehaviourTable

open Frames (get?_append_length get?_append_of_some get?_concat_length)

variable (table : BehaviourTable) (config : Config)

structure Driven (a : Analysis) : Prop where
  wellFormed : a.WellFormed
  config_eq : a.config = config
  sound : config.policy.strictness = .sound
  filled : table.Filled config a.cache

/-- The frames that are being analysed apart from the one of the place are those of `stack`, and all
of them have no value yet. -/
structure Stacked (p : Place) (stack : List Signature) : Prop where
  mem_iff : ∀ signature, signature ∈ stack ↔
    ∃ g ∈ p.stack, ∃ c, p.base.get? g = some c ∧ c.signature = signature
  bottom : ∀ g ∈ p.stack, ∀ c, p.base.get? g = some c → c.result = .bottom
  frame : p.frame.result = .bottom

/-- The behaviour of the place has recorded some reports and made some calls; `opened` are their
frames. -/
structure Midway (p : Place) (stack : List Signature) (reports : List Report)
    (called : List Signature) (found : Set Tip) (opened : List FrameId) (a : Analysis) : Prop
    extends Driven table config a where
  stacked : Stacked p stack
  shape : Shape p a.frames (p.frame.holding p.callers reports) found
  stack_eq : a.stack = p.stack ++ [p.id]
  onStack : ∀ ⦃g⦄, a.frames.Beneath p.id g → g ∈ p.stack
  opened : opened.map (fun g => (a.frames.get? g).map Frame.result) =
    (called.map (table.resultUnder (p.frame.signature :: stack))).map some

/-- The behaviour of the place is through, and its frame has left the stack. -/
structure Done (p : Place) (stack : List Signature) (found : Set Tip) (a : Analysis) : Prop
    extends Driven table config a where
  stack_eq : a.stack = p.stack
  ended : ∃ c, Shape p a.frames c found ∧ table.Ended stack p c

variable {table config} {p : Place} {stack : List Signature} {reports reports' : List Report}
  {called : List Signature} {found : Set Tip} {opened : List FrameId} {a a' : Analysis}
  {callee : Signature} {analyze : Signature → FrameId → AnalysisM Unit}

theorem Driven.strictness_eq (h : table.Driven config a) : a.strictness = .sound := by
  rw [Analysis.strictness, h.config_eq, h.sound]

theorem Driven.partition_eq (h : table.Driven config a) : a.partition = config.partition := by
  rw [Analysis.partition, h.config_eq]

namespace Midway

theorem get? (h : table.Midway config p stack reports called found opened a) :
    a.frames.get? p.id = some (p.frame.holding p.callers reports) := h.shape.get?

theorem writable (h : table.Midway config p stack reports called found opened a) :
    p.frame.ledger.phase = .writable := by
  have hmem : p.id ∈ a.stack := h.stack_eq ▸ List.mem_append_right _ List.mem_cons_self
  obtain ⟨r, hr, hw⟩ := (h.wellFormed.mem_stack p.id).1 hmem
  obtain rfl := Option.some.inj (h.get?.symm.trans hr)
  exact hw

theorem live (h : table.Midway config p stack reports called found opened a) :
    p.frame.aborted = false :=
  (h.wellFormed.live h.get? h.writable :)

/-- The frames that are being analysed are older than the one of the place. -/
theorem get?_base (h : table.Midway config p stack reports called found opened a) {g : FrameId}
    (hg : g ∈ p.stack) : a.frames.get? g = p.base.get? g := by
  have hasc := h.wellFormed.ascending
  rw [h.stack_eq] at hasc
  have hlt : g.index < p.base.length :=
    (List.pairwise_append.1 hasc).2.2 g hg p.id List.mem_cons_self
  obtain ⟨below, hframes, -⟩ := h.shape.below
  rw [hframes, Frames.get?, List.getElem?_append_left hlt, Frames.get?]

/-- What is on the stack, as signatures and as frames. -/
theorem mem_stack_iff (h : table.Midway config p stack reports called found opened a)
    (signature : Signature) : signature ∈ p.frame.signature :: stack ↔
      ∃ g ∈ a.stack, ∃ r, a.frames.get? g = some r ∧ r.signature = signature := by
  rw [List.mem_cons, h.stacked.mem_iff, h.stack_eq]
  constructor
  · rintro (rfl | ⟨g, hg, c, hc, rfl⟩)
    · exact ⟨p.id, List.mem_append_right _ List.mem_cons_self, _, h.get?, rfl⟩
    · exact ⟨g, List.mem_append_left _ hg, c, (h.get?_base hg).trans hc, rfl⟩
  · rintro ⟨g, hg, r, hr, rfl⟩
    rcases List.mem_append.1 hg with hg | hg
    · exact .inr ⟨g, hg, r, (h.get?_base hg).symm.trans hr, rfl⟩
    · obtain rfl := List.mem_singleton.1 hg
      obtain rfl := Option.some.inj (h.get?.symm.trans hr)
      exact .inl rfl

theorem onStack?_eq_none (h : table.Midway config p stack reports called found opened a)
    (hnot : callee ∉ p.frame.signature :: stack) : a.onStack? callee = none :=
  Analysis.onStack?_eq_none.2 fun g hg r hr hsig =>
    hnot ((h.mem_stack_iff callee).2 ⟨g, hg, r, hr, hsig⟩)

/-- The frames on the stack have no value yet. -/
theorem result_eq_bottom (h : table.Midway config p stack reports called found opened a)
    {g : FrameId} {r : Frame} (hg : g ∈ a.stack) (hr : a.frames.get? g = some r) :
    r.result = .bottom := by
  rw [h.stack_eq] at hg
  rcases List.mem_append.1 hg with hg | hg
  · exact h.stacked.bottom g hg r ((h.get?_base hg).symm.trans hr)
  · obtain rfl := List.mem_singleton.1 hg
    obtain rfl := Option.some.inj (h.get?.symm.trans hr)
    exact h.stacked.frame

/-- The frame of the place records something. -/
theorem record (h : table.Midway config p stack reports called found opened a)
    (hdriven : table.Driven config a') {change : Frame → Frame}
    (hframes : a'.frames = a.frames.update p.id change) (hstack : a'.stack = a.stack)
    (hsame : ∀ r : Frame, r.SameCall (change r))
    (hchange : change (p.frame.holding p.callers reports) = p.frame.holding p.callers reports') :
    table.Midway config p stack reports' called found opened a' := by
  have hl := h.wellFormed.linked
  have hext := Frames.extends_update a.frames p.id hsame
  refine ⟨hdriven, h.stacked, ?_, hstack.trans h.stack_eq, ?_, ?_⟩
  · rw [hframes, ← hchange]
    exact h.shape.update hl hsame
  · intro g hb
    rw [hframes] at hb
    exact h.onStack ((hext.beneath_iff hl (hl.update p.id hsame) h.get?).1 hb)
  · rw [← h.opened]
    refine List.map_congr_left fun g _ => ?_
    rw [hframes, Frames.get?_update]
    split
    next hg =>
      rw [hg, h.get?, Option.map_some, Option.map_some, hchange]
      rfl
    next => rfl

/-- The frames of the calls made so far are there. -/
theorem get?_opened (h : table.Midway config p stack reports called found opened a) {g : FrameId}
    (hg : g ∈ opened) : ∃ r, a.frames.get? g = some r := by
  have hmem := List.mem_map_of_mem (f := fun g => (a.frames.get? g).map Frame.result) hg
  rw [h.opened] at hmem
  obtain ⟨result, -, hresult⟩ := List.mem_map.1 hmem
  obtain ⟨r, hr, -⟩ := Option.map_eq_some_iff.1 hresult.symm
  exact ⟨r, hr⟩

/-- A call was made and is through: `c` is its frame, and `new` are the frames beneath it. -/
theorem call (h : table.Midway config p stack reports called found opened a)
    (hdriven : table.Driven config a') {c : Frame} {new : Frames} {position : Position}
    {more : Set Tip} (hframes : a'.frames = a.frames ++ c :: new) (hstack : a'.stack = a.stack)
    (hnot : callee ∉ p.frame.signature :: stack) (hsite : c.site = some ⟨p.id, position⟩)
    (hresult : c.result = (table.get callee).result)
    (htips : tips (Frames.reports (c :: new)) = more)
    (hlength : ∀ ρ ∈ Frames.reports (c :: new), p.callers.length < ρ.path.length)
    (hnew : a'.frames.AllBeneath ⟨a.frames.length⟩) :
    table.Midway config p stack reports (called ++ [callee]) (found ∪ more)
      (opened ++ [⟨a.frames.length⟩]) a' := by
  have hl := h.wellFormed.linked
  have hl' := hdriven.wellFormed.linked
  have hext : a.frames.Extends a'.frames := hframes ▸ Frames.extends_append ..
  have hc : a'.frames.get? ⟨a.frames.length⟩ = some c := hframes ▸ get?_append_length ..
  refine ⟨hdriven, h.stacked, h.shape.call hl hl' hframes hsite htips hlength hnew,
    hstack.trans h.stack_eq, fun g hb => h.onStack ((hext.beneath_iff hl hl' h.get?).1 hb), ?_⟩
  rw [List.map_append, List.map_append, List.map_append, ← h.opened]
  refine congrArg₂ _ (List.map_congr_left fun g hg => ?_) ?_
  · obtain ⟨r, hr⟩ := h.get?_opened hg
    rw [hr, hframes, get?_append_of_some hr]
  · simp [hc, hresult, resultUnder, hnot]

/-! ## Statements -/

theorem run_hook (h : table.Midway config p stack reports called found opened a)
    (position : Position) (hook : Hook) : ∃ a',
      (discard (Analysis.perform (hook.operation p.id position opened))).run a = .ok () a' ∧
      a'.cache = a.cache ∧
      table.Midway config p stack (((hook.finding? .sound p.frame.view
        (called.map (table.resultUnder (p.frame.signature :: stack))) position).map
        (p.frame.view.report position)).toList.foldl Ledger.noted reports) called found opened
        a' := by
  rw [← h.strictness_eq]
  obtain ⟨os, hobs, hfinding⟩ :=
    hook.observing?_operation a.strictness p.frame.view p.id position h.opened
  have heffect := Analysis.perform_observing hobs
  cases hf : hook.finding? a.strictness p.frame.view
      (called.map (table.resultUnder (p.frame.signature :: stack))) position with
  | none =>
    obtain ⟨events, hrun⟩ :=
      Analysis.run_observeFirst_declined position h.get? h.live (hfinding.trans hf)
    have hsame : ∀ r : Frame, r.SameCall (id r) := .refl
    have hframes := (Frames.update_id a.frames p.id).symm
    exact ⟨_, heffect.run_discard hrun, rfl, h.record
      ⟨h.wellFormed.update h.get? hsame rfl rfl hframes rfl, h.config_eq, h.sound, h.filled⟩
      hframes rfl hsame rfl⟩
  | some finding =>
    obtain ⟨isNew, events, hrun⟩ := Analysis.run_observeFirst_recorded position h.get? h.live
      h.writable (hfinding.trans hf)
    rw [h.shape.callers] at hrun
    have hsame := Frame.sameCall_note
      ((p.frame.holding p.callers reports).reportAt p.callers position finding)
    exact ⟨_, heffect.run_discard hrun, rfl, h.record
      ⟨h.wellFormed.update h.get? hsame rfl rfl rfl rfl, h.config_eq, h.sound, h.filled⟩ rfl rfl
      hsame (p.frame.note_holding p.callers reports (p.frame.view.report position finding))⟩

/-- The callee is being analysed. -/
theorem run_call_cycle (h : table.Midway config p stack reports called found opened a)
    (hmem : callee ∈ p.frame.signature :: stack) (position : Position) : ∃ g result a',
      (Analysis.enterCall callee ⟨p.id, position⟩).run a = .ok (.cycle g result) a' ∧
      a'.cache = a.cache ∧
      table.Midway config p stack reports (called ++ [callee]) found (opened ++ [g]) a' := by
  have hr : a.frames.get? (⟨p.id, position⟩ : CallSite).caller = _ := h.get?
  obtain ⟨g', hg', r', hr', hsig⟩ := (h.mem_stack_iff callee).1 hmem
  cases hon : a.onStack? callee with
  | none => exact absurd hsig (Analysis.onStack?_eq_none.1 hon g' hg' r' hr')
  | some top =>
    obtain ⟨g, r⟩ := top
    obtain ⟨hg, hgr, -⟩ := Analysis.onStack?_eq_some hon
    obtain ⟨events, hrun⟩ := Analysis.run_enterCall_cycle hr h.live hon
    refine ⟨g, r.result, _, hrun, rfl,
      ⟨⟨h.wellFormed.linked, h.wellFormed.ascending, h.wellFormed.mem_stack, h.wellFormed.live⟩,
        h.config_eq, h.sound, h.filled⟩, h.stacked, h.shape, h.stack_eq, h.onStack, ?_⟩
    rw [List.map_append, List.map_append, List.map_append]
    refine congrArg₂ _ h.opened ?_
    simp [hgr, h.result_eq_bottom hg hgr, resultUnder, hmem]

/-- The callee is restored from the cache. -/
theorem run_call_restored (h : table.Midway config p stack reports called found opened a)
    (hnot : callee ∉ p.frame.signature :: stack) (position : Position) {call : CachedCall}
    (hk : a.cache.get? ⟨config.partition, callee⟩ = some call) : ∃ a',
      (Analysis.enterCall callee ⟨p.id, position⟩).run a =
        .ok (.cached ⟨a.frames.length⟩ call.result) a' ∧ a'.cache = a.cache ∧
      table.Midway config p stack reports (called ++ [callee]) (found ∪ tips call.reports)
        (opened ++ [⟨a.frames.length⟩]) a' := by
  have hl := h.wellFormed.linked
  obtain ⟨hresult, hpath⟩ := h.filled hk
  let site : CallSite := ⟨p.id, position⟩
  have hr : a.frames.get? site.caller = some (p.frame.holding p.callers reports) := h.get?
  let callers := a.frames.callersAt site (p.frame.holding p.callers reports)
  let c := (Frame.callee callee site (p.frame.depth + 1)).restored callers call
  have hcallers : callers = p.callers ++ [⟨p.frame.signature, position⟩] :=
    congrArg (· ++ [_]) h.shape.callers
  obtain ⟨events, hrun⟩ := Analysis.run_enterCall_restored hl hr h.live
    (h.onStack?_eq_none hnot) (h.partition_eq ▸ hk)
  have hdriven : table.Driven config { a with frames := a.frames ++ [c], events } :=
    ⟨h.wellFormed.openSettled (hl.concat_callee hr rfl rfl rfl) (by simp [c, Frame.restored]) rfl
      rfl, h.config_eq, h.sound, h.filled⟩
  have hreports : Frames.reports [c] =
      (call.reports.map (·.rebase callers)).foldl Ledger.noted [] := List.append_nil _
  refine ⟨_, hrun, rfl, h.call hdriven rfl rfl hnot rfl hresult ?_ (fun ρ hρ => ?_)
    (Frames.allBeneath_concat ..)⟩
  · rw [hreports, tips_foldl_noted, tips_nil, Set.empty_union, tips_map_rebase callers hpath]
  · rw [hreports] at hρ
    have hmem := (Ledger.mem_foldl_noted_subset hρ).resolve_left List.not_mem_nil
    obtain ⟨own, -, rfl⟩ := List.mem_map.1 hmem
    simp only [Report.rebase, CallPath.rebase, hcallers, List.length_append, List.length_singleton]
    omega

/-- The frame of a callee that has to be analysed. -/
theorem enter (h : table.Midway config p stack reports called found opened a) (callee : Signature)
    (position : Position) (events : List Event) :
    table.Midway config
      ⟨a.frames, p.stack ++ [p.id], .callee callee ⟨p.id, position⟩ (p.frame.depth + 1),
        p.callers ++ [⟨p.frame.signature, position⟩]⟩ (p.frame.signature :: stack) [] [] ∅ []
      { a with
        frames := a.frames ++ [.callee callee ⟨p.id, position⟩ (p.frame.depth + 1)]
        stack := a.stack ++ [a.nextFrame]
        events } := by
  let site : CallSite := ⟨p.id, position⟩
  let c := Frame.callee callee site (p.frame.depth + 1)
  have hl := h.wellFormed.linked
  have hr : a.frames.get? site.caller = some (p.frame.holding p.callers reports) := h.get?
  have hl' : Frames.Linked (a.frames ++ [c]) := hl.concat_callee hr rfl rfl rfl
  refine ⟨⟨h.wellFormed.openWritable hl' rfl rfl rfl rfl, h.config_eq, h.sound, h.filled⟩,
    ⟨fun signature => ?_, fun g hg r hgr => ?_, rfl⟩, ⟨⟨[], rfl, tips_nil, fun ρ hρ => ?_⟩,
      .refl _, ?_, Frames.allBeneath_concat ..⟩, congrArg (· ++ [_]) h.stack_eq, ?_, rfl⟩
  · rw [h.mem_stack_iff, h.stack_eq]
  · exact h.result_eq_bottom (h.stack_eq ▸ hg) hgr
  · exact absurd hρ List.not_mem_nil
  · exact (hl.callerPath_opened hr (r := c) rfl rfl rfl).trans
      (congrArg (· ++ [_]) h.shape.callers)
  · intro g hb
    have hc := get?_concat_length a.frames c
    -- what is above the new frame is its caller or above it
    cases hb with
    | direct hr' hs =>
      obtain rfl := Option.some.inj (hc.symm.trans hr')
      cases hs
      exact List.mem_append_right _ List.mem_cons_self
    | through hr' hs hb =>
      obtain rfl := Option.some.inj (hc.symm.trans hr')
      cases hs
      exact List.mem_append_left _
        (h.onStack (((Frames.extends_append _ _).beneath_iff hl hl' hr).1 hb))

end Midway

/-- The computation brings the behaviour of a signature through wherever it is called from the
stack, unless it is on the stack itself: it walks through the calls, and keeps what it found unless
the frame is an entry. -/
def Analyses (table : BehaviourTable) (config : Config)
    (analyze : Signature → FrameId → AnalysisM Unit) (stack : List Signature)
    (signature : Signature) : Prop :=
  signature ∉ stack → ∀ ⦃p a⦄, p.frame.signature = signature →
    table.Midway config p stack [] [] ∅ [] a → ∃ a' inner kept₁,
      (analyze signature p.id).run a = .ok () a' ∧
      table.Walk (signature :: stack) (keptIn config a.cache) (table.callees signature) inner
        kept₁ ∧
      table.Done config p stack inner a' ∧
      keptIn config a'.cache = table.keepFrame stack p.frame inner kept₁

namespace Midway

theorem run_call_analyze (h : table.Midway config p stack reports called found opened a)
    (hnot : callee ∉ p.frame.signature :: stack) (position : Position)
    (hk : a.cache.get? ⟨config.partition, callee⟩ = none)
    (hanalyze : table.Analyses config analyze (p.frame.signature :: stack) callee) :
    ∃ a₁ a' inner kept₁,
      (Analysis.enterCall callee ⟨p.id, position⟩).run a = .ok (.analyze ⟨a.frames.length⟩) a₁ ∧
      (analyze callee ⟨a.frames.length⟩).run a₁ = .ok () a' ∧
      table.Walk (callee :: p.frame.signature :: stack) (keptIn config a.cache)
        (table.callees callee) inner kept₁ ∧
      keptIn config a'.cache = table.keep callee
        (table.own (callee :: p.frame.signature :: stack) callee ∪ inner) kept₁ ∧
      table.Midway config p stack reports (called ++ [callee])
        (found ∪ (table.own (callee :: p.frame.signature :: stack) callee ∪ inner))
        (opened ++ [⟨a.frames.length⟩]) a' := by
  let site : CallSite := ⟨p.id, position⟩
  have hr : a.frames.get? site.caller = some (p.frame.holding p.callers reports) := h.get?
  obtain ⟨events, hrun⟩ :=
    Analysis.run_enterCall_analyze hr h.live (h.onStack?_eq_none hnot) (h.partition_eq ▸ hk)
  obtain ⟨a', inner, kept₁, hrun', hwalk, hdone, hkept⟩ :=
    hanalyze hnot rfl (h.enter callee position events)
  obtain ⟨c, hshape, hended⟩ := hdone.ended
  obtain ⟨below, hframes, hinner, hbelow⟩ := hshape.below
  refine ⟨_, a', inner, kept₁, hrun, hrun', hwalk, hkept, h.call hdone.toDriven hframes
    (hdone.stack_eq.trans h.stack_eq.symm) hnot hshape.sameCall.site hended.result ?_ ?_
    hshape.allBeneath⟩
  · change tips (c.ledger.reports ++ Frames.reports below) = _
    rw [tips_append, hinner, hended.tips_eq]
    rfl
  · intro ρ hρ
    have hlength := (List.mem_append.1 hρ).elim (hended.length_lt ρ) (hbelow ρ)
    simp only [List.length_append, List.length_singleton] at hlength
    omega

theorem run_statements (statements : List Statement)
    (h : table.Midway config p stack reports called found opened a)
    (hanalyze : ∀ site ∈ statements.filterMap Statement.call?,
      table.Analyses config analyze (p.frame.signature :: stack) site.2) : ∃ a' opened' more,
      (Script.runStatements analyze p.id statements opened).run a = .ok () a' ∧
      table.Walk (p.frame.signature :: stack) (keptIn config a.cache)
        ((statements.filterMap Statement.call?).map Prod.snd) more (keptIn config a'.cache) ∧
      table.Midway config p stack
        ((Behaviour.hookReports (table.resultUnder (p.frame.signature :: stack)) p.frame.view
          statements called).foldl Ledger.noted reports)
        (called ++ (statements.filterMap Statement.call?).map Prod.snd) (found ∪ more) opened'
        a' := by
  induction statements generalizing reports called found opened a with
  | nil => exact ⟨a, opened, ∅, rfl, .nil .., by simpa [Behaviour.hookReports] using h⟩
  | cons statement rest ih =>
    cases statement with
    | hook position hook =>
      obtain ⟨a₁, hrun, hcache, h₁⟩ := h.run_hook position hook
      obtain ⟨a', opened', more, hrun', hwalk, h'⟩ := ih h₁ hanalyze
      rw [hcache] at hwalk
      refine ⟨a', opened', more, (Analysis.run_bind_ok hrun).trans hrun', hwalk, ?_⟩
      rw [Behaviour.hookReports, List.foldl_append]
      exact h'
    | call position callee =>
      have hcallee := hanalyze (position, callee) List.mem_cons_self
      have hrest := fun site hsite => hanalyze site (List.mem_cons_of_mem _ hsite)
      by_cases hmem : callee ∈ p.frame.signature :: stack
      · obtain ⟨g, result, a₁, hrun, hcache, h₁⟩ := h.run_call_cycle hmem position
        obtain ⟨a', opened', more, hrun', hwalk, h'⟩ := ih h₁ hrest
        rw [hcache] at hwalk
        rw [List.append_assoc] at h'
        exact ⟨a', opened', more, (Analysis.run_bind_ok hrun).trans hrun', .cycle hmem hwalk, h'⟩
      · cases hk : a.cache.get? ⟨config.partition, callee⟩ with
        | some call =>
          obtain ⟨a₁, hrun, hcache, h₁⟩ := h.run_call_restored hmem position hk
          obtain ⟨a', opened', more, hrun', hwalk, h'⟩ := ih h₁ hrest
          have hkept : keptIn config a.cache callee = some (tips call.reports) := by
            rw [keptIn, hk, Option.map_some]
          rw [hcache] at hwalk
          rw [List.append_assoc, Set.union_assoc] at h'
          exact ⟨a', opened', _, (Analysis.run_bind_ok hrun).trans hrun',
            .restored hmem hkept hwalk, h'⟩
        | none =>
          obtain ⟨a₁, a₂, inner, kept₁, hrun, hrun₁, hinner, hkept₂, h₂⟩ :=
            h.run_call_analyze hmem position hk hcallee
          obtain ⟨a', opened', more, hrun', hwalk, h'⟩ := ih h₂ hrest
          have hkept : keptIn config a.cache callee = none := by rw [keptIn, hk, Option.map_none]
          rw [hkept₂] at hwalk
          rw [List.append_assoc, Set.union_assoc] at h'
          exact ⟨a', opened', _, (Analysis.run_bind_ok hrun).trans <|
            (Analysis.run_bind_ok hrun₁).trans hrun', .analysed hmem hkept hinner hwalk, h'⟩

end Midway

/-! ## The end of a behaviour -/

namespace Midway

private theorem erase_top {α : Type} [BEq α] [LawfulBEq α] (stack : List α) (f : α) :
    ((stack ++ [f]).reverse.erase f).reverse = stack := by
  simp

/-- No body can be generated. -/
theorem run_abort (h : table.Midway config p stack [] [] ∅ [] a) {position : Position}
    {error : ErrorValue} (hb : table.get p.frame.signature = .failure position error) :
    ∃ a', (discard (Analysis.abortFrame p.id position error)).run a = .ok () a' ∧
      a'.cache = a.cache ∧ table.Done config p stack ∅ a' := by
  obtain ⟨recorded, events, hrun⟩ :=
    Analysis.run_abortFrame position error h.get? h.live h.writable
  rw [h.shape.callers, h.stack_eq, erase_top] at hrun
  have hsame := Frame.sameCall_failed p.callers position error
  let a' : Analysis := { a with
    frames := a.frames.update p.id (Frame.failed p.callers position error)
    stack := p.stack
    events }
  have hwf : a'.WellFormed := h.wellFormed.close h.get? hsame
    (by simp [Frame.failed, Frame.closed]) rfl (by rw [h.stack_eq, erase_top])
  refine ⟨_, Analysis.run_discard_ok hrun, rfl, ⟨hwf, h.config_eq, h.sound, h.filled⟩, rfl, _,
    h.shape.update h.wellFormed.linked hsame, ?_, ?_⟩
  · rw [hb]
    rfl
  · rw [hb]
    rfl

/-- The frame of the place was finished and its call is kept, if it is no entry. -/
theorem done (h : table.Midway config p stack reports called found opened a)
    {change : Frame → Frame} (hsame : ∀ r : Frame, r.SameCall (change r))
    (hended : table.Ended stack p (change (p.frame.holding p.callers reports)))
    (hlive : (change (p.frame.holding p.callers reports)).aborted = false)
    (hf : ¬table.Fails p.frame.signature) (hwf : a'.WellFormed) (hconfig : a'.config = a.config)
    (hframes : a'.frames = a.frames.update p.id change) (hstack : a'.stack = p.stack)
    (hcache : ∀ slot, a'.cache.get? slot =
      ((a.frames.update p.id change).keepIn config.partition a.cache p.id).get? slot) :
    table.Done config p stack found a' ∧
      keptIn config a'.cache = table.keepFrame stack p.frame found (keptIn config a.cache) := by
  have hl := h.wellFormed.linked
  have hshape := h.shape.update hl hsame
  have hl' := hl.update p.id hsame
  refine ⟨⟨⟨hwf, hconfig.trans h.config_eq, h.sound, fun signature call hcall => ?_⟩, hstack, _,
    hframes ▸ hshape, hended⟩, ?_⟩
  · exact hended.filled_keepIn hshape hl' h.filled ((hcache _).symm.trans hcall)
  · rw [← hended.keptIn_keepIn hshape hl' hlive hf]
    funext signature
    rw [keptIn, hcache, keptIn]

section

variable {statements : List Statement} {value refined : Ty} {body : List Instruction}
  (h : table.Midway config p stack
    ((Behaviour.hookReports (table.resultUnder (p.frame.signature :: stack)) p.frame.view statements
      []).foldl Ledger.noted []) called found opened a)

include h

theorem run_finishFrame (value : Ty) (body : List Instruction) : ∃ events,
    (Analysis.finishFrame p.id value body).run a = .ok body { a with
      frames := a.frames.update p.id (Frame.finished .sound p.callers value body)
      stack := p.stack
      cache := (a.frames.update p.id (Frame.finished .sound p.callers value body)).keepIn
        config.partition a.cache p.id
      events } := by
  obtain ⟨events, hrun⟩ := Analysis.run_finishFrame value body h.get? h.live h.writable
  rw [h.shape.callers, h.stack_eq, erase_top, h.strictness_eq, h.partition_eq] at hrun
  exact ⟨events, hrun⟩

theorem wellFormed_finished (value : Ty) (body : List Instruction)
    (hframes : a'.frames = a.frames.update p.id (Frame.finished .sound p.callers value body))
    (hstack : a'.stack = p.stack) : a'.WellFormed :=
  h.wellFormed.close h.get? (Frame.sameCall_finished .sound p.callers value body) (by simp) hframes
    (by rw [hstack, h.stack_eq, erase_top])

theorem run_finish
    (hb : table.get p.frame.signature = .body statements value body none) : ∃ a',
      (discard (Analysis.finishFrame p.id value body)).run a = .ok () a' ∧
      table.Done config p stack found a' ∧
      keptIn config a'.cache = table.keepFrame stack p.frame found (keptIn config a.cache) := by
  obtain ⟨events, hrun⟩ := h.run_finishFrame value body
  have hframe := p.frame.finished_soundReports (table.resultUnder (p.frame.signature :: stack))
    p.callers statements value body
  have hsame := Frame.sameCall_finished .sound p.callers value body
  refine ⟨_, Analysis.run_discard_ok hrun, h.done hsame ?_ ?_ (not_fails hb)
    (h.wellFormed_finished value body rfl rfl) rfl rfl rfl fun slot => rfl⟩
  · rw [hframe]
    exact ⟨by rw [hb]; rfl, by rw [hb]; rfl⟩
  · rw [hframe]
    exact h.live

/-- A better result is published while the callers of the frame are still being analysed, so the
only call that is kept anew is the one of the frame. -/
theorem run_finish_refined
    (hb : table.get p.frame.signature = .body statements value body (some refined)) : ∃ a₁ a',
      (discard (Analysis.finishFrame p.id value body)).run a = .ok () a₁ ∧
      (discard (Analysis.publishResult p.id refined)).run a₁ = .ok () a' ∧
      table.Done config p stack found a' ∧
      keptIn config a'.cache = table.keepFrame stack p.frame found (keptIn config a.cache) := by
  obtain ⟨e₁, hrun₁⟩ := h.run_finishFrame value body
  let a₁ : Analysis := { a with
    frames := a.frames.update p.id (Frame.finished .sound p.callers value body)
    stack := p.stack
    cache := (a.frames.update p.id (Frame.finished .sound p.callers value body)).keepIn
      config.partition a.cache p.id
    events := e₁ }
  have hwf₁ : a₁.WellFormed := h.wellFormed_finished value body rfl rfl
  have hsame₁ := Frame.sameCall_finished .sound p.callers value body
  have hr₁ : a₁.frames.get? p.id = _ :=
    Frames.get?_update_self h.get? (Frame.finished .sound p.callers value body)
  rw [p.frame.finished_soundReports] at hr₁
  have hcallers₁ : ∀ g, a₁.frames.Beneath p.id g → g ∈ p.stack := fun g hg =>
    h.onStack (((Frames.extends_update a.frames p.id hsame₁).beneath_iff h.wellFormed.linked
      hwf₁.linked h.get?).1 hg)
  obtain ⟨removed, e₂, hrun₂⟩ := hwf₁.run_publishResult refined hr₁ h.live rfl hcallers₁
  rw [show a₁.strictness = .sound from h.strictness_eq,
    show a₁.partition = config.partition from h.partition_eq] at hrun₂
  have hsame₂ := Frame.sameCall_published .sound refined
  have hframe := p.frame.published_soundReports (table.resultUnder (p.frame.signature :: stack))
    p.callers statements value body refined
  let a₂ : Analysis := { a₁ with
    frames := a₁.frames.update p.id (Frame.published .sound refined)
    cache := (a₁.frames.update p.id (Frame.published .sound refined)).keepIn config.partition
      a₁.cache p.id
    events := e₂ }
  have hwf₂ : a₂.WellFormed :=
    hwf₁.update hr₁ hsame₂ (Frame.phase_published ..) (Frame.aborted_published ..) rfl rfl
  refine ⟨_, _, Analysis.run_discard_ok hrun₁, Analysis.run_discard_ok hrun₂,
    h.done (fun r => (hsame₁ r).trans (hsame₂ _)) ?_ ?_ (not_fails hb) hwf₂ rfl ?_ rfl
      fun slot => ?_⟩
  · rw [hframe]
    exact ⟨by rw [hb]; rfl, by rw [hb]; rfl⟩
  · rw [hframe]
    exact h.live
  · exact Frames.update_update ..
  · -- the call was kept with the first result in between, which the second one replaces
    have hr₂ := Frames.get?_update_self hr₁ (Frame.published .sound refined)
    rw [← Function.comp_def, ← Frames.update_update]
    exact Frames.get?_keepIn_keepIn hr₁ hr₂ (hsame₂ _) (Frame.aborted_published ..)

end

end Midway

/-! ## Behaviours and entries -/

theorem Midway.run_behaviour (h : table.Midway config p stack [] [] ∅ [] a)
    (hanalyze : ∀ callee, table.Calls p.frame.signature callee →
      table.Analyses config analyze (p.frame.signature :: stack) callee) : ∃ a' inner kept₁,
      (Script.runBehaviour analyze p.id (table.get p.frame.signature)).run a = .ok () a' ∧
      table.Walk (p.frame.signature :: stack) (keptIn config a.cache)
        (table.callees p.frame.signature) inner kept₁ ∧
      table.Done config p stack inner a' ∧
      keptIn config a'.cache = table.keepFrame stack p.frame inner kept₁ := by
  cases hb : table.get p.frame.signature with
  | failure position error =>
    have hfails : table.Fails p.frame.signature := ⟨position, error, hb⟩
    obtain ⟨a', hrun, hcache, hdone⟩ := h.run_abort hb
    refine ⟨a', ∅, keptIn config a.cache, hrun, ?_, hdone, ?_⟩
    · rw [callees_of_fails hfails]
      exact .nil ..
    · rw [keepFrame, keep_of_fails hfails, ite_self, hcache]
  | body statements value body refined =>
    have hcallees : (statements.filterMap Statement.call?).map Prod.snd =
        table.callees p.frame.signature := by
      rw [callees, hb]
      rfl
    obtain ⟨a₁, opened, inner, hrun₁, hwalk, h₁⟩ := h.run_statements statements fun site hsite =>
      hanalyze site.2 (mem_callees.1 (hcallees ▸ List.mem_map_of_mem hsite))
    rw [hcallees] at hwalk
    rw [Set.empty_union] at h₁
    cases refined with
    | none =>
      obtain ⟨a', hrun', hdone, hkept⟩ := h₁.run_finish hb
      exact ⟨a', inner, _, (Analysis.run_bind_ok hrun₁).trans <|
        (Analysis.run_bind_ok hrun').trans rfl, hwalk, hdone, hkept⟩
    | some refined =>
      obtain ⟨a₂, a', hrun₂, hrun', hdone, hkept⟩ := h₁.run_finish_refined hb
      exact ⟨a', inner, _, (Analysis.run_bind_ok hrun₁).trans <|
        (Analysis.run_bind_ok hrun₂).trans hrun', hwalk, hdone, hkept⟩

/-- The recursion of the driver ends because what is on the stack is not analysed again. -/
theorem analyses_runFrame (table : BehaviourTable) (config : Config) (stack : List Signature)
    (signature : Signature) : table.Analyses config (table.runFrame stack) stack signature := by
  induction hrank : table.rank stack using Nat.strong_induction_on generalizing stack signature with
  | _ rank ih =>
    subst hrank
    intro hnot p a hp h
    subst hp
    rw [runFrame]
    refine h.run_behaviour fun callee hcall hcallee p' a' hp' h' => ?_
    rw [dif_pos ⟨hnot, hcall⟩]
    exact ih _ (table.rank_lt hnot hcall) (p.frame.signature :: stack) callee rfl hcallee hp' h'

/-- The frame of an entry, opened when nothing is being analysed. -/
theorem Driven.enterEntry (h : table.Driven config a) (hs : a.stack = []) (signature : Signature)
    (events : List Event) :
    table.Midway config ⟨a.frames, [], .entry signature, []⟩ [] [] [] ∅ [] { a with
      frames := a.frames ++ [.entry signature]
      stack := a.stack ++ [a.nextFrame]
      events } := by
  let c := Frame.entry signature
  have hl : Frames.Linked (a.frames ++ [c]) := h.wellFormed.linked.concat_entry rfl rfl rfl
  have hc := get?_concat_length a.frames c
  refine ⟨⟨h.wellFormed.openWritable hl rfl rfl rfl rfl, h.config_eq, h.sound, h.filled⟩,
    ⟨fun signature => by simp, fun g hg => absurd hg List.not_mem_nil, rfl⟩,
    ⟨⟨[], rfl, tips_nil, fun ρ hρ => absurd hρ List.not_mem_nil⟩, .refl _,
      hl.callerPath_entry hc rfl, Frames.allBeneath_concat ..⟩, congrArg (· ++ [_]) hs,
    fun g hb => ?_, rfl⟩
  cases hb.isEntry hl hc

/-- Driving a table through some entries succeeds and is a run of it. -/
theorem run_drive (h : table.Driven config a) (hs : a.stack = []) (entries : List Signature) :
    ∃ a' found, (table.drive entries).run a = .ok () a' ∧ table.Driven config a' ∧ a'.stack = [] ∧
      table.Runs (keptIn config a.cache) entries found (keptIn config a'.cache) ∧
      tips (Frames.reports a'.frames) = tips (Frames.reports a.frames) ∪ found := by
  induction entries generalizing a with
  | nil => exact ⟨a, ∅, rfl, h, hs, .nil _, (Set.union_empty _).symm⟩
  | cons entry entries ih =>
    obtain ⟨events, hrun₁⟩ := Analysis.run_enterEntry a entry
    obtain ⟨a₂, inner, kept₁, hrun₂, hwalk, hdone, hkept⟩ :=
      table.analyses_runFrame config [] entry List.not_mem_nil rfl
        (h.enterEntry hs entry events)
    obtain ⟨a', found, hrun', h', hs', hruns, htips⟩ := ih hdone.toDriven hdone.stack_eq
    rw [hkept] at hruns
    refine ⟨a', _, ?_, h', hs', .entry hwalk hruns, ?_⟩
    · have hentry := (Analysis.run_bind_ok hrun₁).trans hrun₂
      exact (Analysis.run_bind_ok hentry).trans hrun'
    · obtain ⟨c, hshape, hended⟩ := hdone.ended
      obtain ⟨below, hframes, hinner, -⟩ := hshape.below
      have hbelow : Frames.reports (c :: below) = c.ledger.reports ++ Frames.reports below := rfl
      rw [htips, hframes, Frames.reports_append, hbelow, tips_append, tips_append, hinner,
        hended.tips_eq, Set.union_assoc]
      rfl

end BehaviourTable

end FrameAudit
