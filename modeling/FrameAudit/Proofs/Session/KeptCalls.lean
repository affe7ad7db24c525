import FrameAudit.Proofs.Session.UncaughtRaises

/-! # Which calls are kept

The call of a frame is kept from the time when it is finished or filled from the cache, and not
before. So where an uncaught raise of a call is reported in the frame of another call or in the
cache, the call that raises is kept. -/

namespace FrameAudit

namespace Report

variable {ρ : Report} {signature : Signature}

/-- The report is of an uncaught raise in a call with the given signature. -/
def IsUncaughtOf (ρ : Report) (signature : Signature) : Prop :=
  ρ.kind = .uncaughtException ∧ ρ.path.getLast?.map PathStep.signature = some signature

instance (ρ : Report) (signature : Signature) : Decidable (ρ.IsUncaughtOf signature) := by
  unfold IsUncaughtOf
  infer_instance

theorem IsUncaughtOf.of_below {depth : Nat} (h : (ρ.below depth).IsUncaughtOf signature) :
    ρ.IsUncaughtOf signature := by
  obtain ⟨hkind, hlast⟩ := h
  refine ⟨hkind, ?_⟩
  rw [below, CallPath.below, List.getLast?_drop] at hlast
  split at hlast
  · cases hlast
  · exact hlast

theorem IsUncaughtOf.of_rebase {callers : CallPath} (h : (ρ.rebase callers).IsUncaughtOf signature)
    (hne : ρ.path ≠ []) : ρ.IsUncaughtOf signature := by
  obtain ⟨hkind, hlast⟩ := h
  refine ⟨hkind, ?_⟩
  rwa [rebase, CallPath.rebase, List.getLast?_append_of_ne_nil _ hne] at hlast

theorem isUncaughtOf_reportAt {r : Frame} {callers : CallPath} {position : Position}
    {raises : List RaiseSite}
    (h : (r.reportAt callers position (.uncaughtException raises)).IsUncaughtOf signature) :
    signature = r.signature := by
  simpa [Frame.reportAt] using h.2.symm

end Report

/-- Where an uncaught raise is in the cache, the call that raises is kept. -/
def Cache.KeepsRaising (c : Cache) : Prop :=
  ∀ ⦃slot call⦄, c.get? slot = some call → ∀ ρ ∈ call.reports, ∀ signature,
    ρ.IsUncaughtOf signature → (c.get? ⟨slot.partition, signature⟩).isSome

namespace Analysis

open Frames (get?_update_self get?_update_cases)

variable {s : Analysis} {f g : FrameId} {r r' : Frame} {signature : Signature}

/-- The call is kept in the partition of the analysis. -/
def IsKept (s : Analysis) (signature : Signature) : Prop :=
  (s.cache.get? ⟨s.partition, signature⟩).isSome

structure KeptCalls (s : Analysis) : Prop where
  values : ValueOrRaise s
  settled : ∀ ⦃f r⦄, s.frames.Keeps f r → r.ledger.phase = .settled → s.IsKept r.signature
  writable : ∀ ⦃f r⦄, s.frames.Keeps f r → r.ledger.phase = .writable → ¬s.IsKept r.signature
  unique : ∀ ⦃f g r r'⦄, s.frames.Keeps f r → s.frames.Keeps g r' → r.ledger.phase = .writable →
    r'.ledger.phase = .writable → r.signature = r'.signature → f = g
  ledgers : s.frames.All fun r => r.isEntry = false → ∀ ρ ∈ r.ledger.reports, ∀ signature,
    ρ.IsUncaughtOf signature → s.IsKept signature
  cache : s.cache.KeepsRaising

theorem Step.isKept_iff {op : Operation} {res : EStateM.Result Fault Analysis Answer}
    (hstep : Step s op res) : (leaves res).IsKept signature ↔
      ((leaves res).cache.get? ⟨s.partition, signature⟩).isSome := by
  rw [IsKept, partition, hstep.config_eq, partition]

theorem Step.isKept_mono {op : Operation} {res : EStateM.Result Fault Analysis Answer}
    (hstep : Step s op res) (h : s.IsKept signature) : (leaves res).IsKept signature :=
  hstep.isKept_iff.2 (hstep.isSome_cache h)

/-- Where a frame comes from whose call may be kept. -/
inductive Step.Origin (s s' : Analysis) (g : FrameId) (r' : Frame) : Prop where
  | same (r : Frame) : s.frames.Keeps g r → r.SameCall r' → r'.ledger.phase = r.ledger.phase →
    Origin s s' g r'
  | finished (r : Frame) : s.frames.Keeps g r → r.SameCall r' → r.ledger.phase = .writable →
    r'.ledger.phase = .settled → s'.IsKept r'.signature → Origin s s' g r'
  | analyzed : g = s.nextFrame → r'.ledger.phase = .writable →
    s.onStack? r'.signature = none → ¬s.IsKept r'.signature → Origin s s' g r'
  | restored : r'.ledger.phase = .settled → s.IsKept r'.signature → Origin s s' g r'

theorem Step.origin {op : Operation} {res : EStateM.Result Fault Analysis Answer}
    (hstep : Step s op res) (hg : (leaves res).frames.Keeps g r') :
    Origin s (leaves res) g r' ∨ r'.ledger.phase = .frozen := by
  cases hstep with
  | failed | answered => exact .inl (.same r' hg (.refl r') rfl)
  | noted _ _ f r _ _ _ _ hr ha _ _ =>
    rcases hg.update_cases hr with ⟨rfl, rfl⟩ | ⟨-, hg'⟩
    · exact .inl (.same r ⟨hr, hg.isEntry, ha⟩ (Frame.sameCall_note _ _) rfl)
    · exact .inl (.same r' hg' (.refl r') rfl)
  | entry =>
    rcases hg.concat_cases with ⟨-, rfl⟩ | hg'
    · cases hg.isEntry
    · exact .inl (.same r' hg' (.refl r') rfl)
  | analyze signature site c _ _ _ hon hk =>
    rcases hg.concat_cases with ⟨rfl, rfl⟩ | hg'
    · exact .inl (.analyzed rfl rfl hon (Option.not_isSome_iff_eq_none.2 hk))
    · exact .inl (.same r' hg' (.refl r') rfl)
  | restored signature site c call _ _ _ _ hk =>
    rcases hg.concat_cases with ⟨rfl, rfl⟩ | hg'
    · exact .inl (.restored rfl (Option.isSome_of_eq_some hk))
    · exact .inl (.same r' hg' (.refl r') rfl)
  | aborted f r _ _ _ _ hr _ _ =>
    rcases hg.update_cases hr with ⟨-, rfl⟩ | ⟨-, hg'⟩
    · cases hg.aborted
    · exact .inl (.same r' hg' (.refl r') rfl)
  | finished f r result body _ hr ha hw =>
    rcases hg.update_cases hr with ⟨rfl, rfl⟩ | ⟨-, hg'⟩
    · have hsame := Frame.sameCall_finished s.strictness (s.frames.callerPath g) result body r
      refine .inl (.finished r ⟨hr, hsame.isEntry.symm.trans hg.isEntry, ha⟩ hsame hw (by simp) ?_)
      exact Option.isSome_of_eq_some (Frames.get?_keepIn_of_keeps hg)
    · exact .inl (.same r' hg' (.refl r') rfl)
  | published f r result _ hr ha _ =>
    rcases hg.update_cases hr with ⟨rfl, rfl⟩ | ⟨-, hg'⟩
    · have hsame := Frame.sameCall_published s.strictness result r
      exact .inl (.same r ⟨hr, hsame.isEntry.symm.trans hg.isEntry, ha⟩ hsame
        (r.phase_published _ _))
    · exact .inl (.same r' hg' (.refl r') rfl)
  | frozen =>
    obtain ⟨r, -, rfl⟩ := Option.map_eq_some_iff.1 ((get?_freeze s g).symm.trans hg.get?)
    exact .inr rfl

/-- If the calls of settled frames are kept, they still are after an operation. -/
theorem Step.settled_isKept {op : Operation} {res : EStateM.Result Fault Analysis Answer}
    (hstep : Step s op res)
    (h : ∀ ⦃f r⦄, s.frames.Keeps f r → r.ledger.phase = .settled → s.IsKept r.signature) :
    ∀ ⦃g r'⦄, (leaves res).frames.Keeps g r' → r'.ledger.phase = .settled →
      (leaves res).IsKept r'.signature := by
  intro g r' hg hs
  rcases hstep.origin hg with horigin | hfrozen
  · cases horigin with
    | same r hr hsame hphase =>
      rw [hsame.signature]
      exact hstep.isKept_mono (h hr (hphase.symm.trans hs))
    | finished _ _ _ _ _ hk => exact hk
    | analyzed _ hw _ _ => cases hw.symm.trans hs
    | restored _ hk => exact hstep.isKept_mono hk
  · cases hfrozen.symm.trans hs

namespace KeptCalls

variable {op : Operation} {res : EStateM.Result Fault Analysis Answer}

private theorem writable_leaves (h : KeptCalls s) (hstep : Step s op res) :
    ∀ ⦃g r'⦄, (leaves res).frames.Keeps g r' → r'.ledger.phase = .writable →
      ¬(leaves res).IsKept r'.signature := by
  intro g r' hg hw hkept
  -- the call was not kept before, and no other frame of its signature was on the stack
  have hbefore : ¬s.IsKept r'.signature ∧ ∀ ⦃f r⦄, s.frames.Keeps f r →
      r.ledger.phase = .writable → r.signature = r'.signature → f = g := by
    rcases hstep.origin hg with horigin | hfrozen
    · cases horigin with
      | same r hr hsame hphase =>
        have hw' := hphase.symm.trans hw
        rw [hsame.signature]
        exact ⟨h.writable hr hw', fun f r₀ hr₀ hw₀ hsig => h.unique hr₀ hr hw₀ hw' hsig⟩
      | finished _ _ _ _ hs => cases hs.symm.trans hw
      | analyzed _ _ hon hk =>
        refine ⟨hk, fun f r hr hw' hsig => absurd hsig ?_⟩
        have hmem := (h.values.rooted.wellFormed.mem_stack f).2 ⟨r, hr.get?, hw'⟩
        exact onStack?_eq_none.1 hon f hmem r hr.get?
      | restored hs _ => cases hs.symm.trans hw
    · cases hfrozen.symm.trans hw
  obtain ⟨call, hcall⟩ := Option.isSome_iff_exists.1 (hstep.isKept_iff.1 hkept)
  rcases hstep.cache_cases hcall with hcall | ⟨f, r, hr, hs, hslot, -⟩
  · exact hbefore.1 (Option.isSome_of_eq_some hcall)
  · have hsig : r'.signature = r.signature := congrArg Cache.Slot.signature hslot
    rcases hstep.origin hr with horigin | hfrozen
    · cases horigin with
      | same r₀ hr₀ hsame hphase =>
        refine hbefore.1 ?_
        rw [hsig, hsame.signature]
        exact h.settled hr₀ (hphase.symm.trans hs)
      | finished r₀ hr₀ hsame hw₀ _ _ =>
        obtain rfl := hbefore.2 hr₀ hw₀ (hsame.signature.symm.trans hsig.symm)
        obtain rfl := Option.some.inj (hg.get?.symm.trans hr.get?)
        cases hs.symm.trans hw
      | analyzed _ hw' _ _ => cases hw'.symm.trans hs
      | restored _ hk => exact hbefore.1 (hsig ▸ hk)
    · cases hfrozen.symm.trans hs

private theorem unique_leaves (h : KeptCalls s) (hstep : Step s op res) :
    ∀ ⦃f g r r'⦄, (leaves res).frames.Keeps f r → (leaves res).frames.Keeps g r' →
      r.ledger.phase = .writable → r'.ledger.phase = .writable → r.signature = r'.signature →
      f = g := by
  -- a frame on the stack was there before, or nothing of its signature was
  have hback : ∀ {f r}, (leaves res).frames.Keeps f r → r.ledger.phase = .writable →
      (∃ r₀, s.frames.Keeps f r₀ ∧ r₀.ledger.phase = .writable ∧ r.signature = r₀.signature) ∨
        (f = s.nextFrame ∧ ∀ ⦃g r₀⦄, s.frames.Keeps g r₀ → r₀.ledger.phase = .writable →
          r₀.signature ≠ r.signature) := by
    intro f r hr hw
    rcases hstep.origin hr with horigin | hfrozen
    · cases horigin with
      | same r₀ hr₀ hsame hphase =>
        exact .inl ⟨r₀, hr₀, hphase.symm.trans hw, hsame.signature⟩
      | finished _ _ _ _ hs => cases hs.symm.trans hw
      | analyzed hf _ hon _ =>
        refine .inr ⟨hf, fun g r₀ hr₀ hw₀ => ?_⟩
        have hmem := (h.values.rooted.wellFormed.mem_stack g).2 ⟨r₀, hr₀.get?, hw₀⟩
        exact onStack?_eq_none.1 hon g hmem r₀ hr₀.get?
      | restored hs _ => cases hs.symm.trans hw
    · cases hfrozen.symm.trans hw
  intro f g r r' hf hg hwf hwg hsig
  rcases hback hf hwf with ⟨r₁, hr₁, hw₁, hsig₁⟩ | ⟨rfl, hnone⟩
  · rcases hback hg hwg with ⟨r₂, hr₂, hw₂, hsig₂⟩ | ⟨-, hnone⟩
    · exact h.unique hr₁ hr₂ hw₁ hw₂ (hsig₁.symm.trans (hsig.trans hsig₂))
    · exact absurd (hsig₁.symm.trans hsig) (hnone hr₁ hw₁)
  · rcases hback hg hwg with ⟨r₂, hr₂, hw₂, hsig₂⟩ | ⟨rfl, -⟩
    · exact absurd (hsig₂.symm.trans hsig.symm) (hnone hr₂ hw₂)
    · rfl

/-- The reports of the frames of callees after an operation were there or in the cache before, or
are of an uncaught raise in a frame that is finished without a value. -/
theorem forall_ledgers {P : Report → Prop} (h : ValueOrRaise s) (hstep : Step s op res)
    (hother : ∀ ρ : Report, ρ.kind ≠ .uncaughtException → P ρ)
    (hledgers : s.frames.All fun r => r.isEntry = false → ∀ ρ ∈ r.ledger.reports, P ρ)
    (hcache : ∀ signature call callers, s.cache.get? ⟨s.partition, signature⟩ = some call →
      ∀ ρ ∈ call.reports, ρ.path ≠ [] → P (ρ.rebase callers))
    (hfinished : ∀ f r result body callers position, op = .finishFrame f result body →
      s.frames.Keeps f r → r.ledger.phase = .writable → (leaves res).IsKept r.signature →
      s.strictness = .sound ∨ result.isBottom = true →
      P (r.reportAt callers position
        (.uncaughtException (unreportedRaises r.ledger.seriousPositions body)))) :
    (leaves res).frames.All fun r => r.isEntry = false → ∀ ρ ∈ r.ledger.reports, P ρ := by
  cases hstep with
  | failed | answered => exact hledgers
  | noted _ _ f r _ finding _ _ hr _ _ hat =>
    refine hledgers.update hr fun he => ?_
    exact Frame.forall_mem_note (hledgers hr he) (hother _ hat.kind_ne)
  | entry => exact hledgers.concat fun he => by cases he
  | analyze => exact hledgers.concat fun _ ρ hρ => absurd hρ List.not_mem_nil
  | restored signature site c call _ _ _ _ hk =>
    refine hledgers.concat fun _ => Frame.forall_mem_restored rfl fun ρ hρ => ?_
    obtain ⟨position, rest, hpath⟩ := h.rooted.cache hk ρ hρ
    exact hcache signature call _ hk ρ hρ (by simp [hpath])
  | aborted f r position error _ _ hr _ _ =>
    refine hledgers.update hr fun he => ?_
    exact Frame.forall_mem_note (hledgers hr he) (hother _ (by simp [Report.kind, Frame.reportAt,
      Finding.kind]))
  | finished f r result body _ hr ha hw =>
    refine hledgers.update hr fun he => ?_
    have hsame := Frame.sameCall_finished s.strictness (s.frames.callerPath f) result body r
    have hkeeps : s.frames.Keeps f r := ⟨hr, hsame.isEntry.symm.trans he, ha⟩
    have hkept := Frames.get?_keepIn_of_keeps (p := s.partition) (c := s.cache)
      (hkeeps.update (Frame.sameCall_finished s.strictness (s.frames.callerPath f) result body)
        (r.aborted_finished _ _ _ _))
    rw [hsame.signature] at hkept
    refine Frame.forall_mem_finished (hledgers hr hkeeps.isEntry) (fun _ _ => hother _ ?_) ?_
    · simp [Report.kind, Frame.reportAt, Finding.kind]
    · exact fun position => hfinished f r result body _ position rfl hkeeps hw
        (Option.isSome_of_eq_some hkept)
  | published f r result _ hr _ _ =>
    refine hledgers.update hr fun he => ?_
    have hsame := Frame.sameCall_published s.strictness result r
    exact Frame.forall_mem_retracted (hledgers hr (hsame.isEntry.symm.trans he))
  | frozen =>
    refine all_freeze fun f r hr => ?_
    have hr' := hledgers hr
    exact hr'

private theorem ledgers_leaves (h : KeptCalls s) (hstep : Step s op res) :
    (leaves res).frames.All fun r => r.isEntry = false → ∀ ρ ∈ r.ledger.reports, ∀ signature,
      ρ.IsUncaughtOf signature → (leaves res).IsKept signature := by
  refine forall_ledgers h.values hstep ?_ ?_ ?_ ?_
  · exact fun ρ hkind signature hu => absurd hu.1 hkind
  · exact fun f r hr he ρ hρ signature hu => hstep.isKept_mono (h.ledgers hr he ρ hρ signature hu)
  · intro signature call callers hk ρ hρ hne signature' hu
    exact hstep.isKept_mono (h.cache hk ρ hρ signature' (hu.of_rebase hne))
  · intro f r result body callers position _ _ _ hkept _ signature hu
    obtain rfl := Report.isUncaughtOf_reportAt hu
    exact hkept

private theorem cache_leaves (h : KeptCalls s) (hstep : Step s op res)
    (hl : (leaves res).frames.Linked) : (leaves res).cache.KeepsRaising := by
  intro slot call hk ρ hρ signature hu
  rcases hstep.cache_cases hk with hk | ⟨f, r, hr, -, rfl, rfl⟩
  · exact hstep.isSome_cache (h.cache hk ρ hρ signature hu)
  · obtain ⟨g, r', hr', he, -, own, hown, rfl⟩ := hl.exists_ledger_of_callOf hr hρ
    exact hstep.isKept_iff.1 (h.ledgers_leaves hstep hr' he own hown signature hu.of_below)

theorem after (h : KeptCalls s) (op : Operation) : KeptCalls (s.after op) := by
  have hvalues := h.values.after op
  have hl := hvalues.rooted.wellFormed.linked
  have hstep := step_cases h.values.rooted.wellFormed.linked op
  rw [after_eq] at hvalues hl ⊢
  exact ⟨hvalues, hstep.settled_isKept h.settled, h.writable_leaves hstep, h.unique_leaves hstep,
    h.ledgers_leaves hstep, h.cache_leaves hstep hl⟩

theorem start (config : Config) {cache : Cache} (hroot : cache.Rooted) (hvalue : cache.ValueOrRaise)
    (hraise : cache.KeepsRaising) : KeptCalls { config, cache } where
  values := ⟨.start config hroot, .nil _, hvalue⟩
  settled _ _ hr := by simpa [Frames.get?] using hr.get?
  writable _ _ hr := by simpa [Frames.get?] using hr.get?
  unique _ _ _ _ hr := by simpa [Frames.get?] using hr.get?
  ledgers := .nil _
  cache := hraise

end KeptCalls

end Analysis

end FrameAudit
