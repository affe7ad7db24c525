import FrameAudit.Proofs.Session.KeptCalls

/-! # Retracted reports that come back

Under the basic policy, publishing a value for a finished call takes its uncaught raises away from
its frame, and from the cache where its own call and those of its callers are kept. The reports may
have been copied further: the same call may have been restored elsewhere in the analysis, and other
calls may have been kept with it. A retraction is exhaustive if there are no such copies. As long as
all retractions are, no call is kept with an uncaught raise of a call that is kept with a value, and
no frame of a callee reports one; the first retraction that is not leaves a copy in one of these
places. -/

namespace FrameAudit

namespace Analysis

open Frames (get?_update_self get?_update_cases)

variable {s : Analysis} {f g : FrameId} {r r' : Frame} {signature : Signature} {op : Operation}
  {res : EStateM.Result Fault Analysis Answer}

/-- A value is known for the call: it is kept with one, or a frame of it has settled with one. -/
def HasValue (s : Analysis) (signature : Signature) : Prop :=
  (∃ call, s.cache.get? ⟨s.partition, signature⟩ = some call ∧ call.result.isBottom = false) ∨
    ∃ f r, s.frames.Keeps f r ∧ r.ledger.phase = .settled ∧ r.signature = signature ∧
      r.result.isBottom = false

/-- An uncaught raise of the call is reported with a call that is kept or in the frame of a
callee. -/
def Reports (s : Analysis) (signature : Signature) : Prop :=
  (∃ caller call, s.cache.get? ⟨s.partition, caller⟩ = some call ∧
    ∃ ρ ∈ call.reports, ρ.IsUncaughtOf signature) ∨
    ∃ f r, s.frames.get? f = some r ∧ r.isEntry = false ∧
      ∃ ρ ∈ r.ledger.reports, ρ.IsUncaughtOf signature

/-- No call is kept in a partition of a basic policy with an uncaught raise of a call that is kept
there with a value; and in an analysis under a basic policy no uncaught raise is reported of a call
that has a value. -/
structure OutdatedFree (s : Analysis) : Prop where
  cache : ∀ partition signature call, s.cache.get? ⟨partition, signature⟩ = some call →
    partition.policy.strictness = .basic → call.result.isBottom = false →
    ∀ caller call', s.cache.get? ⟨partition, caller⟩ = some call' →
      ∀ ρ ∈ call'.reports, ¬ρ.IsUncaughtOf signature
  current : s.strictness = .basic → ∀ signature, s.HasValue signature → ¬s.Reports signature

/-- Nothing but the frame itself and what is kept anew reports an uncaught raise of its call. Kept
anew are the call itself and, if the frame has uncaught raises to retract, its finished callers. -/
structure NoCopies (s : Analysis) (f : FrameId) (r : Frame) : Prop where
  ledgers : ∀ g r', s.frames.get? g = some r' → g ≠ f → r'.isEntry = false →
    ∀ ρ ∈ r'.ledger.reports, ¬ρ.IsUncaughtOf r.signature
  cache : ∀ caller call, s.cache.get? ⟨s.partition, caller⟩ = some call →
    (∃ ρ ∈ call.reports, ρ.IsUncaughtOf r.signature) →
    caller = r.signature ∨ (∃ ρ ∈ r.ledger.reports, ρ.kind = .uncaughtException) ∧
      ∃ g r', s.frames.Beneath f g ∧ s.frames.Keeps g r' ∧ r'.ledger.phase = .settled ∧
        r'.signature = caller

/-- If the operation publishes a value for a finished call under a basic policy, then there are no
copies of its uncaught raises. -/
def Exhaustive (s : Analysis) : Operation → Prop
  | .publishResult f result => s.strictness = .basic → result.isBottom = false →
    ∀ r, s.frames.Keeps f r → r.ledger.phase = .settled → s.NoCopies f r
  | _ => True

/-! ## One operation -/

/-- The operation finishes the frame of a callee. -/
def Finishes (s : Analysis) (op : Operation) (signature : Signature) (result : Ty) : Prop :=
  ∃ f r body, op = .finishFrame f result body ∧ s.frames.Keeps f r ∧
    r.ledger.phase = .writable ∧ r.signature = signature

/-- The operation publishes a result for the finished frame of a callee. -/
def Publishes (s : Analysis) (op : Operation) (signature : Signature) (result : Ty) : Prop :=
  ∃ f r, op = .publishResult f result ∧ s.frames.Keeps f r ∧
    r.ledger.phase = .settled ∧ r.signature = signature

theorem KeptCalls.isKept_of_reports (h : KeptCalls s) (hr : s.Reports signature) :
    s.IsKept signature := by
  rcases hr with ⟨caller, call, hk, ρ, hρ, hu⟩ | ⟨f, r, hr, he, ρ, hρ, hu⟩
  · exact h.cache hk ρ hρ signature hu
  · exact h.ledgers hr he ρ hρ signature hu

theorem KeptCalls.isKept_of_hasValue (h : KeptCalls s) (hv : s.HasValue signature) :
    s.IsKept signature := by
  rcases hv with ⟨call, hk, -⟩ | ⟨f, r, hr, hs, rfl, -⟩
  · exact Option.isSome_of_eq_some hk
  · exact h.settled hr hs

/-- Reports beneath a frame of a callee are in frames of callees. -/
theorem exists_ledger_of_callOf {frames : Frames} (hl : frames.Linked) (hr : frames.Keeps f r)
    (h : ∃ ρ ∈ (frames.callOf f r).reports, ρ.IsUncaughtOf signature) :
    ∃ g r', frames.get? g = some r' ∧ r'.isEntry = false ∧
      ∃ ρ ∈ r'.ledger.reports, ρ.IsUncaughtOf signature := by
  obtain ⟨ρ, hρ, hu⟩ := h
  obtain ⟨g, r', hr', he, -, own, hown, rfl⟩ := hl.exists_ledger_of_callOf hr hρ
  exact ⟨g, r', hr', he, own, hown, hu.of_below⟩

/-- An uncaught raise is new only if it is of a frame that is finished without a value. -/
theorem Step.reports_cases (h : KeptCalls s) (hstep : Step s op res)
    (hl : (leaves res).frames.Linked) (hr : (leaves res).Reports signature) :
    s.Reports signature ∨ ∃ result, s.Finishes op signature result ∧
      (s.strictness = .sound ∨ result.isBottom = true) := by
  have hledgers : (leaves res).frames.All fun r => r.isEntry = false → ∀ ρ ∈ r.ledger.reports,
      ρ.IsUncaughtOf signature → s.Reports signature ∨ ∃ result, s.Finishes op signature result ∧
        (s.strictness = .sound ∨ result.isBottom = true) := by
    refine KeptCalls.forall_ledgers h.values hstep ?_ ?_ ?_ ?_
    · exact fun ρ hkind hu => absurd hu.1 hkind
    · exact fun f r hr he ρ hρ hu => .inl (.inr ⟨f, r, hr, he, ρ, hρ, hu⟩)
    · exact fun caller call callers hk ρ hρ hne hu =>
        .inl (.inl ⟨caller, call, hk, ρ, hρ, hu.of_rebase hne⟩)
    · intro f r result body callers position hop hr hw _ hcond hu
      exact .inr ⟨result, ⟨f, r, body, hop, hr, hw, (Report.isUncaughtOf_reportAt hu).symm⟩, hcond⟩
  rcases hr with ⟨caller, call, hk, ρ, hρ, hu⟩ | ⟨f, r, hr, he, ρ, hρ, hu⟩
  · rw [partition, hstep.config_eq] at hk
    rcases hstep.cache_cases hk with hk | ⟨f, r, hr, -, -, rfl⟩
    · exact .inl (.inl ⟨caller, call, hk, ρ, hρ, hu⟩)
    · obtain ⟨g, r', hr', he, own, hown, hu'⟩ := exists_ledger_of_callOf hl hr ⟨ρ, hρ, hu⟩
      exact hledgers hr' he own hown hu'
  · exact hledgers hr he ρ hρ hu

private theorem Step.settled_value_cases (hstep : Step s op res)
    (hg : (leaves res).frames.Keeps g r') (hs : r'.ledger.phase = .settled)
    (hb : r'.result.isBottom = false) : s.HasValue r'.signature ∨ ∃ result,
      result.isBottom = false ∧
        (s.Finishes op r'.signature result ∨ s.Publishes op r'.signature result) := by
  have hold : s.frames.Keeps g r' → s.HasValue r'.signature :=
    fun hg' => .inr ⟨g, r', hg', hs, rfl, hb⟩
  cases hstep with
  | failed | answered => exact .inl (hold hg)
  | noted _ _ f r _ _ _ _ hr _ hw _ =>
    rcases hg.update_cases hr with ⟨-, rfl⟩ | ⟨-, hg'⟩
    · cases hw.symm.trans hs
    · exact .inl (hold hg')
  | entry | analyze =>
    rcases hg.concat_cases with ⟨-, rfl⟩ | hg'
    · cases hs
    · exact .inl (hold hg')
  | restored signature site c call _ _ _ _ hk =>
    rcases hg.concat_cases with ⟨-, rfl⟩ | hg'
    · exact .inl (.inl ⟨call, hk, hb⟩)
    · exact .inl (hold hg')
  | aborted f r _ _ _ _ hr _ _ =>
    rcases hg.update_cases hr with ⟨-, rfl⟩ | ⟨-, hg'⟩
    · cases hg.aborted
    · exact .inl (hold hg')
  | finished f r result body _ hr ha hw =>
    rcases hg.update_cases hr with ⟨rfl, rfl⟩ | ⟨-, hg'⟩
    · have hsame := Frame.sameCall_finished s.strictness (s.frames.callerPath g) result body r
      rw [Frame.result_finished] at hb
      exact .inr ⟨result, hb, .inl ⟨g, r, body, rfl,
        ⟨hr, hsame.isEntry.symm.trans hg.isEntry, ha⟩, hw, hsame.signature.symm⟩⟩
    · exact .inl (hold hg')
  | published f r result _ hr ha _ =>
    rcases hg.update_cases hr with ⟨rfl, rfl⟩ | ⟨-, hg'⟩
    · have hsame := Frame.sameCall_published s.strictness result r
      have hs' := (r.phase_published s.strictness result).symm.trans hs
      exact .inr ⟨result, hb, .inr ⟨g, r, rfl,
        ⟨hr, hsame.isEntry.symm.trans hg.isEntry, ha⟩, hs', hsame.signature.symm⟩⟩
    · exact .inl (hold hg')
  | frozen =>
    obtain ⟨r, -, rfl⟩ := Option.map_eq_some_iff.1 ((get?_freeze s g).symm.trans hg.get?)
    cases hs

/-- A value is new only if a frame is finished with it or it is published for a finished frame. -/
theorem Step.hasValue_cases (hstep : Step s op res) (hv : (leaves res).HasValue signature) :
    s.HasValue signature ∨ ∃ result, result.isBottom = false ∧
      (s.Finishes op signature result ∨ s.Publishes op signature result) := by
  rcases hv with ⟨call, hk, hb⟩ | ⟨f, r, hr, hs, rfl, hb⟩
  · rw [partition, hstep.config_eq] at hk
    rcases hstep.cache_cases hk with hk | ⟨f, r, hr, hs, hslot, rfl⟩
    · exact .inl (.inl ⟨call, hk, hb⟩)
    · obtain rfl : signature = r.signature := congrArg Cache.Slot.signature hslot
      exact hstep.settled_value_cases hr hs hb
  · exact hstep.settled_value_cases hr hs hb

/-- Only publishing a value can bring a report together with a value. -/
theorem OutdatedFree.publishes (ho : OutdatedFree s) (h : KeptCalls s) (hstep : Step s op res)
    (hl : (leaves res).frames.Linked) (hs : s.strictness = .basic)
    (hv : (leaves res).HasValue signature) (hr : (leaves res).Reports signature) :
    ∃ result, result.isBottom = false ∧ s.Publishes op signature result := by
  rcases hstep.hasValue_cases hv with hv | ⟨result, hb, hfinish | hpublish⟩
  · rcases hstep.reports_cases h hl hr with hr | ⟨result, hfinish, -⟩
    · exact absurd hr (ho.current hs signature hv)
    · obtain ⟨f, r, body, -, hkeeps, hw, rfl⟩ := hfinish
      exact absurd (h.isKept_of_hasValue hv) (h.writable hkeeps hw)
  · obtain ⟨f, r, body, rfl, hkeeps, hw, rfl⟩ := hfinish
    rcases hstep.reports_cases h hl hr with hr | ⟨result', hfinish', hcond⟩
    · exact absurd (h.isKept_of_reports hr) (h.writable hkeeps hw)
    · obtain ⟨_, _, _, hop, -⟩ := hfinish'
      cases hop
      simp [hs, hb] at hcond
  · exact ⟨result, hb, hpublish⟩

/-! ## Publishing a value -/

section Publish

variable {result : Ty}

theorem retractedBy_pos_iff (hs : s.strictness = .basic) (hb : result.isBottom = false) :
    0 < retractedBy s.strictness result r ↔
      ∃ ρ ∈ r.ledger.reports, ρ.kind = .uncaughtException := by
  have hcond : (s.strictness = .basic && !result.isBottom) = true := by simp [hs, hb]
  rw [retractedBy, Frame.retracted, if_pos hcond, Nat.sub_pos_iff_lt, Frame.withoutUncaught,
    List.length_filter_lt_length_iff_exists]
  simp

/-- What is kept anew, as the frames were before. -/
theorem keptAnew_published_iff (hl : s.frames.Linked) (hs : s.strictness = .basic)
    (hb : result.isBottom = false) (hr : s.frames.Keeps f r) (hsettled : r.ledger.phase = .settled)
    (caller : Signature) :
    (∃ k ∈ (s.frames.update f (Frame.published s.strictness result)).keptAnew f r.ledger.phase
        (retractedBy s.strictness result r),
      ∃ r', (s.frames.update f (Frame.published s.strictness result)).Keeps k r' ∧
        r'.signature = caller) ↔
    caller = r.signature ∨ (∃ ρ ∈ r.ledger.reports, ρ.kind = .uncaughtException) ∧
      ∃ g r', s.frames.Beneath f g ∧ s.frames.Keeps g r' ∧ r'.ledger.phase = .settled ∧
        r'.signature = caller := by
  have hsame := Frame.sameCall_published s.strictness result
  have hl' := hl.update f hsame
  have hself : (s.frames.update f (Frame.published s.strictness result)).Keeps f
      (r.published s.strictness result) := hr.update hsame (r.aborted_published _ _)
  have hbeneath : ∀ {g}, (s.frames.update f (Frame.published s.strictness result)).Beneath f g ↔
      s.frames.Beneath f g :=
    Frames.Extends.beneath_iff (Frames.extends_update _ f hsame) hl hl' hr.get?
  have hne : ∀ {g}, s.frames.Beneath f g → g ≠ f := by
    rintro g hg rfl
    exact Nat.lt_irrefl _ (hg.lt hl hr.get?).1
  simp only [Frames.mem_keptAnew hl' hself.get? hsettled, ← retractedBy_pos_iff hs hb]
  constructor
  · rintro ⟨k, rfl | ⟨hremoved, hg, r'', hr'', hsettled'⟩, r', hr', rfl⟩
    · obtain rfl := Option.some.inj (hself.get?.symm.trans hr'.get?)
      exact .inl (hsame r).signature
    · obtain rfl := Option.some.inj (hr'.get?.symm.trans hr'')
      have hg' := hbeneath.1 hg
      rcases hr'.update_cases hr.get? with ⟨hkf, -⟩ | ⟨-, hkeeps⟩
      · exact absurd hkf (hne hg')
      · exact .inr ⟨hremoved, k, r', hg', hkeeps, hsettled', rfl⟩
  · rintro (rfl | ⟨hremoved, g, r', hg, hkeeps, hsettled', rfl⟩)
    · exact ⟨f, .inl rfl, _, hself, (hsame r).signature⟩
    · have hget : (s.frames.update f (Frame.published s.strictness result)).get? g = some r' :=
        (Frames.get?_update_of_ne (hne hg) _).trans hkeeps.get?
      exact ⟨g, .inr ⟨hremoved, hbeneath.2 hg, r', hget, hsettled'⟩, r',
        ⟨hget, hkeeps.isEntry, hkeeps.aborted⟩, rfl⟩

theorem not_reports_published_iff (hl : s.frames.Linked) (hs : s.strictness = .basic)
    (hb : result.isBottom = false) (hr : s.frames.Keeps f r)
    (hsettled : r.ledger.phase = .settled) :
    ¬(s.after (.publishResult f result)).Reports r.signature ↔ s.NoCopies f r := by
  obtain ⟨events, hafter⟩ := after_publishResult result hl hr.get? hr.aborted
    (by simp [hsettled])
  have hl' := hl.update f (Frame.sameCall_published s.strictness result)
  have hkept := keptAnew_published_iff hl hs hb hr hsettled
  rw [hafter]
  constructor
  · intro hnone
    constructor
    · intro g r' hg hne he ρ hρ hu
      refine hnone (.inr ⟨g, r', ?_, he, ρ, hρ, hu⟩)
      exact (Frames.get?_update_of_ne hne _).trans hg
    · rintro caller call hk ⟨ρ, hρ, hu⟩
      -- what is not kept anew still reports the raise
      by_contra hnot
      refine hnone (.inl ⟨caller, call, ?_, ρ, hρ, hu⟩)
      refine (Frames.get?_foldl_keepIn_of_ne fun k hk' r' hr' hslot =>
        hnot ((hkept caller).1 ?_)).trans hk
      exact ⟨k, hk', r', hr', (congrArg Cache.Slot.signature hslot).symm⟩
  · rintro ⟨hledgers, hcache⟩ hreports
    have hnone : ∀ g r',
        (s.frames.update f (Frame.published s.strictness result)).get? g = some r' →
        r'.isEntry = false → ∀ ρ ∈ r'.ledger.reports, ¬ρ.IsUncaughtOf r.signature := by
      intro g r' hg he ρ hρ hu
      rcases get?_update_cases hr.get? hg with ⟨-, rfl⟩ | ⟨hne, hg⟩
      · exact Frame.kind_ne_of_mem_retracted hs hb ρ hρ hu.1
      · exact hledgers g r' hg hne he ρ hρ hu
    rcases hreports with ⟨caller, call, hk, hu⟩ | ⟨g, r', hg, he, ρ, hρ, hu⟩
    · have hcall : ∃ k r', (s.frames.update f (Frame.published s.strictness result)).Keeps k r' ∧
          call = (s.frames.update f (Frame.published s.strictness result)).callOf k r' := by
        rcases Frames.get?_foldl_keepIn_cases hk with hold | ⟨k, -, r', hr', -, hcall⟩
        · obtain ⟨k, hmem, r', hr', rfl⟩ := (hkept caller).2 (hcache caller call hold hu)
          obtain ⟨k', -, r'', hr'', hget⟩ := Frames.get?_foldl_keepIn_of_mem
            (p := s.partition) (c := s.cache) hr' hmem
          exact ⟨k', r'', hr'', Option.some.inj (hk.symm.trans hget)⟩
        · exact ⟨k, r', hr', hcall⟩
      obtain ⟨k, r', hr', rfl⟩ := hcall
      obtain ⟨g, r'', hg, he, ρ, hρ, hu⟩ := exists_ledger_of_callOf hl' hr' hu
      exact hnone g r'' hg he ρ hρ hu
    · exact hnone g r' hg he ρ hρ hu

end Publish

theorem OutdatedFree.of_current (ho : OutdatedFree s) (hstep : Step s op res)
    (hcurrent : (leaves res).strictness = .basic → ∀ signature, (leaves res).HasValue signature →
      ¬(leaves res).Reports signature) : OutdatedFree (leaves res) := by
  refine ⟨fun p signature call hk hp hb caller call' hk' ρ hρ hu => ?_, hcurrent⟩
  have hpartition : (leaves res).partition = s.partition := by
    rw [partition, hstep.config_eq, partition]
  by_cases hps : p = s.partition
  · subst hps
    rw [← hpartition] at hk hk'
    refine hcurrent ?_ signature (.inl ⟨call, hk, hb⟩) (.inl ⟨caller, call', hk', ρ, hρ, hu⟩)
    rwa [strictness, hstep.config_eq]
  · -- nothing is kept in other partitions
    have hold : ∀ {signature call}, (leaves res).cache.get? ⟨p, signature⟩ = some call →
        s.cache.get? ⟨p, signature⟩ = some call := by
      intro signature call hk
      rcases hstep.cache_cases hk with hk | ⟨f, r, -, -, hslot, -⟩
      · exact hk
      · exact absurd (congrArg Cache.Slot.partition hslot) hps
    exact ho.cache p signature call (hold hk) hp hb caller call' (hold hk') ρ hρ hu

theorem outdatedFree_after_iff (h : KeptCalls s) (ho : OutdatedFree s) (op : Operation) :
    (s.after op).OutdatedFree ↔ s.Exhaustive op := by
  have hl := h.values.rooted.wellFormed.linked
  have hl' := (h.values.rooted.wellFormed.after op).linked
  have hstep := step_cases hl op
  have hstrict : (s.after op).strictness = s.strictness := by
    rw [after_eq, strictness, hstep.config_eq, strictness]
  constructor
  · intro ho'
    cases op with
    | publishResult f result =>
      intro hs hb r hr hsettled
      refine (not_reports_published_iff hl hs hb hr hsettled).1
        (ho'.current (hstrict.trans hs) _ ?_)
      obtain ⟨events, hafter⟩ := after_publishResult result hl hr.get? hr.aborted
        (by simp [hsettled])
      have hsame := Frame.sameCall_published s.strictness result
      rw [hafter]
      exact .inr ⟨f, _, hr.update hsame (r.aborted_published _ _),
        (r.phase_published _ _).trans hsettled, (hsame r).signature, hb⟩
    | _ => trivial
  · intro hex
    rw [after_eq] at hl' hstrict ⊢
    refine ho.of_current hstep fun hs signature hv hr => ?_
    have hs' := hstrict.symm.trans hs
    obtain ⟨result, hb, f, r, rfl, hkeeps, hsettled, rfl⟩ := ho.publishes h hstep hl' hs' hv hr
    have hnone := (not_reports_published_iff hl hs' hb hkeeps hsettled).2
      (hex hs' hb r hkeeps hsettled)
    rw [after_eq] at hnone
    exact hnone hr

end Analysis

namespace Session

open Analysis (RunBy Exhaustive)

variable {s : Session} {a : Analysis} {config : Config}

theorem outdatedFree_invariant :
    Invariant Exhaustive (fun c => c.Rooted ∧ c.ValueOrRaise ∧ c.KeepsRaising ∧
      ∀ partition signature call, c.get? ⟨partition, signature⟩ = some call →
        partition.policy.strictness = .basic → call.result.isBottom = false →
        ∀ caller call', c.get? ⟨partition, caller⟩ = some call' →
          ∀ ρ ∈ call'.reports, ¬ρ.IsUncaughtOf signature)
      (fun a => a.KeptCalls ∧ a.OutdatedFree) where
  empty := by
    refine ⟨fun _ _ hk => ?_, fun _ _ hk => ?_, fun _ _ hk => ?_, fun _ _ _ hk => ?_⟩ <;> simp at hk
  start config cache h := by
    obtain ⟨hroot, hvalue, hraise, hcache⟩ := h
    refine ⟨.start config hroot hvalue hraise, hcache, fun hs signature hv hr => ?_⟩
    -- there is no frame yet, so both the value and the report are in the cache
    rcases hv with ⟨call, hk, hb⟩ | ⟨f, r, hkeeps, -⟩
    · rcases hr with ⟨caller, call', hk', ρ, hρ, hu⟩ | ⟨f, r, hr, -⟩
      · exact hcache _ signature call hk hs hb caller call' hk' ρ hρ hu
      · simp [Frames.get?] at hr
    · simpa [Frames.get?] using hkeeps.get?
  after op h hop := ⟨h.1.after op, (Analysis.outdatedFree_after_iff h.1 h.2 op).2 hop⟩
  cache h := ⟨h.1.values.rooted.cache, h.1.values.cache, h.1.cache, h.2.cache⟩

/-- As long as every retraction is exhaustive, no call is kept in a partition of a basic policy with
an uncaught raise of a call that is kept there with a value, and no such raise is reported in the
frame of a callee. It is the exhaustive operations that keep both so: an operation that is not may
leave its copies in frames alone. -/
theorem outdatedFree_iff_exhaustive (hs : s.ReachableBy Exhaustive)
    (ha : RunBy Exhaustive (s.analysis config) a) :
    a.OutdatedFree ∧ ∀ op, (a.after op).OutdatedFree ↔ a.Exhaustive op := by
  obtain ⟨hkept, hfree⟩ := outdatedFree_invariant.analysis hs ha
  exact ⟨hfree, Analysis.outdatedFree_after_iff hkept hfree⟩

/-- Two calls call the same callee, which raises: it is analysed in the first of them and restored
in the second one. -/
def sharedCallee : List Operation :=
  [.enterEntry ⟨"main", []⟩,
   .enterCall ⟨"first", []⟩ ⟨⟨0⟩, ⟨"m.jl", 1⟩⟩,
   .enterCall ⟨"callee", []⟩ ⟨⟨1⟩, ⟨"m.jl", 10⟩⟩,
   .finishFrame ⟨2⟩ .bottom [.raise ⟨"m.jl", 30⟩ "error(x)"],
   .finishFrame ⟨1⟩ .any [],
   .enterCall ⟨"second", []⟩ ⟨⟨0⟩, ⟨"m.jl", 2⟩⟩,
   .enterCall ⟨"callee", []⟩ ⟨⟨3⟩, ⟨"m.jl", 20⟩⟩,
   .finishFrame ⟨3⟩ .any []]

/-- A value that is then published for the callee leaves its uncaught raise with the second call. -/
theorem outdatedFree_iff_exhaustive_sharedCallee :
    let a := (({} : Session).analysis {}).run sharedCallee
    let last := a.after (.publishResult ⟨2⟩ .any)
    ReachableBy Exhaustive {} ∧ RunBy Exhaustive (({} : Session).analysis {}) a ∧ a.OutdatedFree ∧
      ¬a.Exhaustive (.publishResult ⟨2⟩ .any) ∧
      (∃ call, last.cache.get? ⟨last.partition, ⟨"callee", []⟩⟩ = some call ∧
        call.result = .any) ∧
      ∃ call, last.cache.get? ⟨last.partition, ⟨"second", []⟩⟩ = some call ∧
        ∃ ρ ∈ call.reports, ρ.IsUncaughtOf ⟨"callee", []⟩ := by
  have hrun : RunBy Exhaustive (({} : Session).analysis {})
      ((({} : Session).analysis {}).run sharedCallee) :=
    .run .start fun op hop a => by
      simp only [sharedCallee, List.mem_cons, List.not_mem_nil, or_false] at hop
      rcases hop with rfl | rfl | rfl | rfl | rfl | rfl | rfl | rfl <;> trivial
  obtain ⟨hfree, hiff⟩ := outdatedFree_iff_exhaustive .start hrun
  let last := ((({} : Session).analysis {}).run sharedCallee).after (.publishResult ⟨2⟩ .any)
  have hvalue : last.cache.get? ⟨last.partition, ⟨"callee", []⟩⟩ = some ⟨.any, []⟩ := by decide
  have hcopy : last.cache.get? ⟨last.partition, ⟨"second", []⟩⟩ = some ⟨.any,
      [⟨[⟨⟨"second", []⟩, ⟨"m.jl", 20⟩⟩, ⟨⟨"callee", []⟩, ⟨"m.jl", 30⟩⟩],
        .uncaughtException [⟨⟨"m.jl", 30⟩, "error(x)"⟩]⟩]⟩ := by decide
  refine ⟨.start, hrun, hfree, fun hex => ?_, ⟨_, hvalue, rfl⟩, _, hcopy, _, List.mem_cons_self, ?_⟩
  · refine ((hiff _).2 hex).cache _ _ _ hvalue rfl rfl _ _ hcopy _ List.mem_cons_self ?_
    decide
  · decide

end Session

end FrameAudit
