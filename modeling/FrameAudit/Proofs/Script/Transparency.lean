import FrameAudit.Proofs.Script.Agreement

/-! # The cache is transparent to scripts

Carrying out a script gives the reports that expanding its call tree gives, whatever earlier runs of
it left in the cache. -/

namespace FrameAudit.Script

open Frames (get?_append_of_some)

variable {script : Script} {config : Config} {p : Place} {reports : List Report}
  {called : List (Position × Signature)} {opened : List FrameId} {a a' : Analysis}
  {callee : Signature} {analyze : Signature → FrameId → AnalysisM Unit}

theorem Driven.strictness_eq (h : script.Driven config a) :
    a.strictness = config.policy.strictness := by
  rw [Analysis.strictness, h.config_eq]

theorem Driven.partition_eq (h : script.Driven config a) : a.partition = config.partition := by
  rw [Analysis.partition, h.config_eq]

/-! ## Statements -/

namespace Midway

theorem run_hook (h : script.Midway config p reports called opened a) (position : Position)
    (hook : Hook) : ∃ a',
      (discard (Analysis.perform (hook.operation p.id position opened))).run a = .ok () a' ∧
      script.Midway config p (((hook.finding? config.policy.strictness p.frame.view
        (called.map fun site => (script.behaviour site.2).result) position).map
        (p.frame.view.report position)).toList.foldl Ledger.noted reports) called opened a' := by
  rw [← h.strictness_eq]
  obtain ⟨os, hobs, hfinding⟩ :=
    hook.observing?_operation a.strictness p.frame.view p.id position h.opened
  have heffect := Analysis.perform_observing hobs
  cases hf : hook.finding? a.strictness p.frame.view
      (called.map fun site => (script.behaviour site.2).result) position with
  | none =>
    obtain ⟨events, hrun⟩ :=
      Analysis.run_observeFirst_declined position h.get? h.live (hfinding.trans hf)
    have hsame : ∀ r : Frame, r.SameCall (id r) := .refl
    have hframes := (Frames.update_id a.frames p.id).symm
    exact ⟨_, heffect.run_discard hrun, h.record
      ⟨h.wellFormed.update h.get? hsame rfl rfl hframes rfl, h.config_eq, h.agrees⟩ hframes rfl
      hsame rfl⟩
  | some finding =>
    obtain ⟨isNew, events, hrun⟩ := Analysis.run_observeFirst_recorded position h.get? h.live
      h.writable (hfinding.trans hf)
    rw [h.callers] at hrun
    have hsame := Frame.sameCall_note
      ((p.frame.holding p.callers reports).reportAt p.callers position finding)
    exact ⟨_, heffect.run_discard hrun, h.record
      ⟨h.wellFormed.update h.get? hsame rfl rfl rfl rfl, h.config_eq, h.agrees⟩ rfl rfl hsame
      (p.frame.note_holding p.callers reports (p.frame.view.report position finding))⟩

/-- The frames that are being analysed are older than the one of the behaviour. -/
theorem get?_base (h : script.Midway config p reports called opened a) {g : FrameId} {r : Frame}
    (hg : g ∈ p.stack) (hr : a.frames.get? g = some r) : p.base.get? g = some r := by
  have hasc := h.wellFormed.ascending
  rw [h.stack] at hasc
  have hlt : g.index < p.base.length :=
    (List.pairwise_append.1 hasc).2.2 g hg p.id List.mem_cons_self
  obtain ⟨below, hframes, -⟩ := h.shape
  rw [hframes, Frames.get?, List.getElem?_append_left hlt] at hr
  exact hr

/-- Whatever is being analysed leads to the callee by calls. -/
theorem calling_callee (h : script.Midway config p reports called opened a)
    (hcall : script.table.Calls p.frame.signature callee) {g : FrameId} {r : Frame}
    (hg : g ∈ p.stack ++ [p.id]) (hr : a.frames.get? g = some r) :
    Relation.TransGen script.table.Calls r.signature callee := by
  rcases List.mem_append.1 hg with hg | hg
  · exact (h.calling g hg r (h.get?_base hg hr)).tail hcall
  · rw [List.mem_singleton.1 hg] at hr
    obtain rfl := Option.some.inj (h.get?.symm.trans hr)
    exact .single hcall

/-- Without recursion there are no cycles. -/
theorem onStack?_callee (h : script.Midway config p reports called opened a)
    (hcall : script.table.Calls p.frame.signature callee) : a.onStack? callee = none := by
  refine Analysis.onStack?_eq_none.2 fun g hg r hr heq => ?_
  rw [h.stack] at hg
  exact script.acyclic callee (heq ▸ h.calling_callee hcall hg hr)

theorem run_call_cached (h : script.Midway config p reports called opened a)
    (hcall : script.table.Calls p.frame.signature callee) (position : Position) {call : CachedCall}
    (hk : a.cache.get? ⟨a.partition, callee⟩ = some call) : ∃ a',
      (Analysis.enterCall callee ⟨p.id, position⟩).run a =
        .ok (.cached ⟨a.frames.length⟩ call.result) a' ∧
      script.Midway config p reports (called ++ [(position, callee)])
        (opened ++ [⟨a.frames.length⟩]) a' := by
  have hl := h.wellFormed.linked
  have hfaithful := h.agrees (h.partition_eq ▸ hk)
  let site : CallSite := ⟨p.id, position⟩
  have hr : a.frames.get? site.caller = some (p.frame.holding p.callers reports) := h.get?
  let callers := a.frames.callersAt site (p.frame.holding p.callers reports)
  let c := (Frame.callee callee site (p.frame.depth + 1)).restored callers call
  have hcallers : callers = p.callers ++ [⟨p.frame.signature, position⟩] :=
    congrArg (· ++ [_]) h.callers
  obtain ⟨events, hrun⟩ := Analysis.run_enterCall_restored hl hr h.live
    (h.onStack?_callee hcall) hk
  have hdriven : script.Driven config { a with frames := a.frames ++ [c], events } :=
    ⟨h.wellFormed.openSettled (hl.concat_callee hr rfl rfl rfl) (by simp [c, Frame.restored]) rfl
      rfl, h.config_eq, h.agrees⟩
  refine ⟨_, hrun, h.call hdriven rfl rfl rfl hfaithful.result (fun ρ => ?_)
    (Frames.allBeneath_concat ..)⟩
  have hmem : ρ ∈ c.ledger.reports ↔ _ := hfaithful.mem_restored rfl callers
  rw [← hcallers, ← hmem]
  simp [Frames.reports]

/-- The frame of a callee that has to be analysed. -/
theorem enter (h : script.Midway config p reports called opened a)
    (hcall : script.table.Calls p.frame.signature callee) (position : Position)
    (events : List Event) :
    script.Midway config
      ⟨a.frames, p.stack ++ [p.id], .callee callee ⟨p.id, position⟩ (p.frame.depth + 1),
        p.callers ++ [⟨p.frame.signature, position⟩]⟩ [] [] []
      { a with
        frames := a.frames ++ [.callee callee ⟨p.id, position⟩ (p.frame.depth + 1)]
        stack := a.stack ++ [a.nextFrame]
        events } := by
  let site : CallSite := ⟨p.id, position⟩
  let c := Frame.callee callee site (p.frame.depth + 1)
  have hl := h.wellFormed.linked
  have hr : a.frames.get? site.caller = some (p.frame.holding p.callers reports) := h.get?
  have hl' : Frames.Linked (a.frames ++ [c]) := hl.concat_callee hr rfl rfl rfl
  refine ⟨⟨h.wellFormed.openWritable hl' rfl rfl rfl rfl, h.config_eq, h.agrees⟩,
    ⟨[], rfl, fun ρ => by simp [Frames.reports]⟩, congrArg (· ++ [_]) h.stack, ?_, ?_, ?_,
    Frames.allBeneath_concat .., rfl⟩
  · exact (hl.callerPath_opened hr (r := c) rfl rfl rfl).trans (congrArg (· ++ [_]) h.callers)
  · intro g hb
    have hc := Frames.get?_concat_length a.frames c
    -- what is above the new frame is its caller or above it
    cases hb with
    | direct hr' hs =>
      obtain rfl := Option.some.inj (hc.symm.trans hr')
      cases hs
      exact List.mem_append_right _ List.mem_cons_self
    | through hr' hs hb =>
      obtain rfl := Option.some.inj (hc.symm.trans hr')
      cases hs
      exact List.mem_append_left _
        (h.onStack (((Frames.extends_append _ _).beneath_iff hl hl' hr).1 hb))
  · exact fun g hg r hr => h.calling_callee hcall hg hr

end Midway

/-- The computation brings the behaviour of a signature through wherever it is called. -/
def Analyses (script : Script) (config : Config) (analyze : Signature → FrameId → AnalysisM Unit)
    (signature : Signature) : Prop :=
  ∀ ⦃p a⦄, p.frame.signature = signature → script.Midway config p [] [] [] a →
    ∃ a', (analyze signature p.id).run a = .ok () a' ∧ script.Done config p a'

namespace Midway

theorem run_call_analyze (h : script.Midway config p reports called opened a)
    (hcall : script.table.Calls p.frame.signature callee) (position : Position)
    (hk : a.cache.get? ⟨a.partition, callee⟩ = none)
    (hanalyze : script.Analyses config analyze callee) : ∃ a₁ a',
      (Analysis.enterCall callee ⟨p.id, position⟩).run a = .ok (.analyze ⟨a.frames.length⟩) a₁ ∧
      (analyze callee ⟨a.frames.length⟩).run a₁ = .ok () a' ∧
      script.Midway config p reports (called ++ [(position, callee)])
        (opened ++ [⟨a.frames.length⟩]) a' := by
  let site : CallSite := ⟨p.id, position⟩
  have hr : a.frames.get? site.caller = some (p.frame.holding p.callers reports) := h.get?
  obtain ⟨events, hrun⟩ :=
    Analysis.run_enterCall_analyze hr h.live (h.onStack?_callee hcall) hk
  obtain ⟨a', hrun', hdone⟩ := hanalyze rfl (h.enter hcall position events)
  obtain ⟨c, hgrown⟩ := hdone.grown
  obtain ⟨below, hframes, hreports⟩ := hgrown.shape
  exact ⟨_, a', hrun, hrun', h.call hdone.toDriven hframes (hdone.stack.trans h.stack.symm)
    hgrown.sameCall.site hgrown.result hreports hgrown.allBeneath⟩

theorem run_statements (statements : List Statement)
    (h : script.Midway config p reports called opened a)
    (hcalls : ∀ site ∈ statements.filterMap Statement.call?,
      script.table.Calls p.frame.signature site.2)
    (hanalyze : ∀ callee, script.table.Calls p.frame.signature callee →
      script.Analyses config analyze callee) : ∃ a' opened',
      (runStatements analyze p.id statements opened).run a = .ok () a' ∧
      script.Midway config p ((script.hookReports config.policy.strictness p.frame.view statements
        (called.map fun site => (script.behaviour site.2).result)).foldl Ledger.noted reports)
        (called ++ statements.filterMap Statement.call?) opened' a' := by
  induction statements generalizing reports called opened a with
  | nil => exact ⟨a, opened, rfl, by simpa [hookReports] using h⟩
  | cons statement rest ih =>
    cases statement with
    | hook position hook =>
      obtain ⟨a₁, hrun, h₁⟩ := h.run_hook position hook
      obtain ⟨a', opened', hrun', h'⟩ := ih h₁ hcalls
      refine ⟨a', opened', (Analysis.run_bind_ok hrun).trans hrun', ?_⟩
      rw [hookReports, List.foldl_append]
      exact h'
    | call position callee =>
      have hcall := hcalls (position, callee) List.mem_cons_self
      have hrest := fun site hsite => hcalls site (List.mem_cons_of_mem _ hsite)
      cases hk : a.cache.get? ⟨a.partition, callee⟩ with
      | some call =>
        obtain ⟨a₁, hrun, h₁⟩ := h.run_call_cached hcall position hk
        obtain ⟨a', opened', hrun', h'⟩ := ih h₁ hrest
        rw [List.map_append, List.append_assoc] at h'
        exact ⟨a', opened', (Analysis.run_bind_ok hrun).trans hrun', h'⟩
      | none =>
        obtain ⟨a₁, a₂, hrun, hrun₁, h₂⟩ :=
          h.run_call_analyze hcall position hk (hanalyze callee hcall)
        obtain ⟨a', opened', hrun', h'⟩ := ih h₂ hrest
        rw [List.map_append, List.append_assoc] at h'
        exact ⟨a', opened', (Analysis.run_bind_ok hrun).trans <|
          (Analysis.run_bind_ok hrun₁).trans hrun', h'⟩

end Midway

/-! ## The end of a behaviour -/

private theorem erase_last {α : Type} [BEq α] [LawfulBEq α] (stack : List α) (f : α) :
    ((stack ++ [f]).reverse.erase f).reverse = stack := by
  simp

/-- The frame of the behaviour is closed and leaves the stack. -/
theorem Midway.wellFormed_closed (h : script.Midway config p reports called opened a)
    {change : Frame → Frame} (hsame : ∀ r : Frame, r.SameCall (change r))
    (hphase : (change (p.frame.holding p.callers reports)).ledger.phase ≠ .writable)
    (hframes : a'.frames = a.frames.update p.id change) (hstack : a'.stack = p.stack) :
    a'.WellFormed :=
  h.wellFormed.close h.get? hsame hphase hframes (by rw [hstack, h.stack, erase_last])

theorem Midway.run_abort (h : script.Midway config p [] [] [] a) {position : Position}
    {error : ErrorValue} (hb : script.behaviour p.frame.signature = .failure position error) :
    ∃ a', (discard (Analysis.abortFrame p.id position error)).run a = .ok () a' ∧
      script.Done config p a' := by
  obtain ⟨recorded, events, hrun⟩ :=
    Analysis.run_abortFrame position error h.get? h.live h.writable
  rw [h.callers, h.stack, erase_last] at hrun
  have hsame := Frame.sameCall_failed p.callers position error
  have hcalled : (script.behaviour p.frame.signature).calls = [] := by rw [hb]; rfl
  have h' : script.Midway config p [] (script.behaviour p.frame.signature).calls [] a :=
    hcalled ▸ h
  have hgrown := h'.grown hsame rfl (by rw [ownReports, hb]; rfl) (by rw [hb]; rfl)
  refine ⟨_, Analysis.run_discard_ok hrun, ⟨?_, h.config_eq, h.agrees⟩, rfl, _, hgrown⟩
  exact h.wellFormed_closed hsame (by simp [Frame.failed, Frame.closed]) rfl rfl

/-- What finishing the frame of the place leaves. -/
def finishedAt (config : Config) (p : Place) (result : Ty) (instructions : List Instruction)
    (a : Analysis) (events : List Event) : Analysis :=
  let frames := a.frames.update p.id
    (Frame.finished config.policy.strictness p.callers result instructions)
  { a with
    frames
    stack := p.stack
    cache := frames.keepIn config.partition a.cache p.id
    events }

theorem Midway.run_finishFrame (h : script.Midway config p reports called opened a) (result : Ty)
    (instructions : List Instruction) : ∃ events,
      (Analysis.finishFrame p.id result instructions).run a =
        .ok instructions (finishedAt config p result instructions a events) := by
  obtain ⟨events, hrun⟩ :=
    Analysis.run_finishFrame result instructions h.get? h.live h.writable
  rw [h.callers, h.stack, erase_last, h.strictness_eq, h.partition_eq] at hrun
  exact ⟨events, hrun⟩

theorem Midway.wellFormed_finishedAt (h : script.Midway config p reports called opened a)
    (result : Ty) (instructions : List Instruction) (events : List Event) :
    (finishedAt config p result instructions a events).WellFormed :=
  h.wellFormed_closed (Frame.sameCall_finished _ p.callers result instructions) (by simp) rfl rfl

section

variable {statements : List Statement} {result refined : Ty} {instructions : List Instruction}
  (h : script.Midway config p
    ((script.hookReports config.policy.strictness p.frame.view statements []).foldl Ledger.noted [])
    (script.behaviour p.frame.signature).calls opened a)

include h

theorem Midway.run_finish
    (hb : script.behaviour p.frame.signature = .body statements result instructions none) : ∃ a',
      (discard (Analysis.finishFrame p.id result instructions)).run a = .ok () a' ∧
      script.Done config p a' := by
  obtain ⟨events, hrun⟩ := h.run_finishFrame result instructions
  have hwf := h.wellFormed_finishedAt result instructions events
  have hsame := Frame.sameCall_finished config.policy.strictness p.callers result instructions
  have hframe := p.frame.finished_hookReports script config.policy.strictness p.callers statements
    result instructions
  have hgrown := h.grown hsame hframe (by rw [ownReports, hb]; rfl) (by rw [hb]; rfl)
  exact ⟨_, Analysis.run_discard_ok hrun,
    ⟨hwf, h.config_eq, hgrown.agrees_keepIn hwf.linked h.agrees⟩, rfl, _, hgrown⟩

/-- A better result is published while the callers of the frame are still being analysed, so the
only call that is kept anew is the one of the frame. -/
theorem Midway.run_finish_refined
    (hb : script.behaviour p.frame.signature =
      .body statements result instructions (some refined)) :
    ∃ a₁ a', (discard (Analysis.finishFrame p.id result instructions)).run a = .ok () a₁ ∧
      (discard (Analysis.publishResult p.id refined)).run a₁ = .ok () a' ∧
      script.Done config p a' := by
  obtain ⟨e₁, hrun₁⟩ := h.run_finishFrame result instructions
  have hwf₁ := h.wellFormed_finishedAt result instructions e₁
  have hsame₁ := Frame.sameCall_finished config.policy.strictness p.callers result instructions
  have hr₁ := Frames.get?_update_self h.get?
    (Frame.finished config.policy.strictness p.callers result instructions)
  rw [p.frame.finished_hookReports] at hr₁
  have hcallers₁ : ∀ g, (finishedAt config p result instructions a e₁).frames.Beneath p.id g →
      g ∈ p.stack := fun g hg =>
    h.onStack (((Frames.extends_update a.frames p.id hsame₁).beneath_iff h.wellFormed.linked
      hwf₁.linked h.get?).1 hg)
  obtain ⟨removed, e₂, hrun₂⟩ := hwf₁.run_publishResult refined hr₁ h.live rfl hcallers₁
  rw [show (finishedAt config p result instructions a e₁).strictness = _ from h.strictness_eq,
    show (finishedAt config p result instructions a e₁).partition = _ from h.partition_eq] at hrun₂
  have hsame₂ := Frame.sameCall_published config.policy.strictness refined
  have hframe₂ := p.frame.published_hookReports script config.policy.strictness p.callers statements
    result refined instructions
  have hgrown := h.grown (fun r => (hsame₁ r).trans (hsame₂ _)) hframe₂
    (by rw [ownReports, hb]; rfl) (by rw [hb]; rfl)
  rw [← Function.comp_def, ← Frames.update_update] at hgrown
  refine ⟨_, _, Analysis.run_discard_ok hrun₁, Analysis.run_discard_ok hrun₂,
    ⟨hwf₁.update hr₁ hsame₂ (Frame.phase_published ..) (Frame.aborted_published ..) rfl rfl,
      h.config_eq, fun signature call hget => ?_⟩, rfl, _, hgrown⟩
  -- the call was kept with the first result in between, which the second one replaces
  refine hgrown.agrees_keepIn (hwf₁.linked.update p.id hsame₂) h.agrees (Eq.trans ?_ hget)
  exact (Frames.get?_keepIn_keepIn hr₁ hgrown.get? ⟨rfl, rfl, rfl, rfl⟩ rfl).symm

end

/-! ## Behaviours and entries -/

theorem Midway.run_behaviour (h : script.Midway config p [] [] [] a)
    (hanalyze : ∀ callee, script.table.Calls p.frame.signature callee →
      script.Analyses config analyze callee) : ∃ a',
      (runBehaviour analyze p.id (script.behaviour p.frame.signature)).run a = .ok () a' ∧
      script.Done config p a' := by
  cases hb : script.behaviour p.frame.signature with
  | failure position error => exact h.run_abort hb
  | body statements result instructions refined =>
    have hcalls : ∀ site ∈ statements.filterMap Statement.call?,
        script.table.Calls p.frame.signature site.2 := by
      intro site hsite
      refine List.mem_map.2 ⟨site, ?_, rfl⟩
      change site ∈ (script.behaviour p.frame.signature).calls
      rw [hb]
      exact hsite
    obtain ⟨a₁, opened, hrun₁, h₁⟩ := h.run_statements statements hcalls hanalyze
    have hcalled : [] ++ statements.filterMap Statement.call? =
        (script.behaviour p.frame.signature).calls := by rw [hb]; rfl
    rw [hcalled] at h₁
    cases refined with
    | none =>
      obtain ⟨a', hrun', hdone⟩ := h₁.run_finish hb
      exact ⟨a', (Analysis.run_bind_ok hrun₁).trans <| (Analysis.run_bind_ok hrun').trans rfl,
        hdone⟩
    | some refined =>
      obtain ⟨a₂, a', hrun₂, hrun', hdone⟩ := h₁.run_finish_refined hb
      exact ⟨a', (Analysis.run_bind_ok hrun₁).trans <| (Analysis.run_bind_ok hrun₂).trans hrun',
        hdone⟩

/-- The recursion of the driver follows the calls. -/
theorem analyses_runFrame (script : Script) (config : Config) (signature : Signature) :
    script.Analyses config script.runFrame signature := by
  induction hrank : script.rank signature using Nat.strong_induction_on generalizing signature with
  | _ rank ih =>
    subst hrank
    intro p a hp h
    subst hp
    rw [runFrame]
    refine h.run_behaviour fun callee hcall p' a' hp' h' => ?_
    rw [dif_pos hcall]
    exact ih _ (script.rank_lt hcall) callee rfl hp' h'

/-- The frame of an entry, opened when nothing is being analysed. -/
theorem Driven.enterEntry (h : script.Driven config a) (hs : a.stack = []) (signature : Signature)
    (events : List Event) :
    script.Midway config ⟨a.frames, [], .entry signature, []⟩ [] [] [] { a with
      frames := a.frames ++ [.entry signature]
      stack := a.stack ++ [a.nextFrame]
      events } := by
  let c := Frame.entry signature
  have hl : Frames.Linked (a.frames ++ [c]) := h.wellFormed.linked.concat_entry rfl rfl rfl
  have hc := Frames.get?_concat_length a.frames c
  refine ⟨⟨h.wellFormed.openWritable hl rfl rfl rfl rfl, h.config_eq, h.agrees⟩,
    ⟨[], rfl, fun ρ => by simp [Frames.reports]⟩, congrArg (· ++ [_]) hs,
    hl.callerPath_entry hc rfl, fun g hb => ?_, fun g hg => absurd hg List.not_mem_nil,
    Frames.allBeneath_concat .., rfl⟩
  have := hb.isEntry hl hc
  cases this

theorem run_drive (h : script.Driven config a) (hs : a.stack = []) (entries : List Signature) :
    ∃ a', (script.drive entries).run a = .ok () a' ∧ script.Driven config a' ∧ a'.stack = [] ∧
      ∀ ρ, ρ ∈ Frames.reports a'.frames ↔ ρ ∈ Frames.reports a.frames ∨
        ∃ entry ∈ entries, script.Expansion config.policy.strictness true entry ρ := by
  induction entries generalizing a with
  | nil => exact ⟨a, rfl, h, hs, by simp⟩
  | cons entry entries ih =>
    obtain ⟨events, hrun₁⟩ := Analysis.run_enterEntry a entry
    obtain ⟨a₂, hrun₂, hdone⟩ :=
      script.analyses_runFrame config entry rfl (h.enterEntry hs entry events)
    obtain ⟨a', hrun', h', hs', hreports'⟩ := ih hdone.toDriven hdone.stack
    refine ⟨a', ?_, h', hs', fun ρ => ?_⟩
    · have hentry := (Analysis.run_bind_ok hrun₁).trans hrun₂
      exact (Analysis.run_bind_ok hentry).trans hrun'
    · obtain ⟨c, hgrown⟩ := hdone.grown
      obtain ⟨below, hframes, hreports⟩ := hgrown.shape
      have hentry : ρ ∈ Frames.reports (c :: below) ↔
          script.Expansion config.policy.strictness true entry ρ := by
        rw [hreports]
        constructor
        · rintro ⟨inner, hinner, rfl⟩
          exact hinner
        · exact fun hρ => ⟨ρ, hρ, rfl⟩
      rw [hreports', hframes, Frames.reports_append, List.mem_append, hentry, or_assoc]
      simp

/-! ## Sessions -/

theorem agrees_sessionAfter {session : Session} (h : script.Agrees config session.cache)
    (entries : List Signature) :
    script.Agrees config (script.sessionAfter config session entries).cache := by
  obtain ⟨a', hrun, h', -⟩ := run_drive (a := session.analysis config)
    ⟨.start config session.cache, rfl, h⟩ rfl entries
  rw [sessionAfter, hrun]
  exact h'.agrees

theorem agrees_foldl_sessionAfter {session : Session} (h : script.Agrees config session.cache)
    (earlier : List (List Signature)) :
    script.Agrees config (earlier.foldl (script.sessionAfter config) session).cache := by
  induction earlier generalizing session with
  | nil => exact h
  | cons entries earlier ih => exact ih (agrees_sessionAfter h entries)

/-- Carrying out a script succeeds, and its reports are those of the call trees of its entries,
whatever runs of the script there were before in the session. -/
theorem mem_reports_drive (script : Script) (config : Config) (earlier : List (List Signature))
    (entries : List Signature) : ∃ a,
      (script.drive entries).run
        ((earlier.foldl (script.sessionAfter config) {}).analysis config) = .ok () a ∧
      ∀ ρ, ρ ∈ a.conclude.1.reports ↔
        ∃ entry ∈ entries, script.Expansion config.policy.strictness true entry ρ := by
  let session := earlier.foldl (script.sessionAfter config) {}
  have hagrees : script.Agrees config session.cache :=
    agrees_foldl_sessionAfter
      (fun signature call hget => by simp [Cache.get?_empty] at hget) earlier
  obtain ⟨a, hrun, -, -, hreports⟩ := run_drive (a := session.analysis config)
    ⟨.start config session.cache, rfl, hagrees⟩ rfl entries
  refine ⟨a, hrun, fun ρ => ?_⟩
  rw [Analysis.reports_conclude, hreports]
  simp [Session.analysis, Frames.reports]

/-- Two calls of one signature; the second is filled from the cache. -/
def sharedCallee : Script where
  table :=
    [(⟨"main", []⟩,
      .body [.call ⟨"main", 1⟩ ⟨"leaf", []⟩, .call ⟨"main", 2⟩ ⟨"leaf", []⟩] .bottom [] none),
    (⟨"leaf", []⟩, .body [.hook ⟨"leaf", 7⟩ (.queryReturnType 0)] .bottom [] none)]
  acyclic :=
    BehaviourTable.acyclic_of_rank (fun s => if s.callee = "main" then 1 else 0) (by decide)

example : (sharedCallee.drive [⟨"main", []⟩]).run (Session.analysis {} {}) |> fun
    | .ok _ a => a.conclude.1.reports.map Report.path = [1, 2].map fun line =>
        [⟨⟨"main", []⟩, ⟨"main", line⟩⟩, ⟨⟨"leaf", []⟩, ⟨"leaf", 7⟩⟩]
    | .error _ _ => False := by
  cbv

end FrameAudit.Script
