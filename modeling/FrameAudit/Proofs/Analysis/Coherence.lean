import FrameAudit.Proofs.Analysis.Nesting

/-! # The cache agrees with the frames

In a properly nested run, the call of every frame that was analysed and finished is kept as it is
now: with the current result of the frame and the current reports of the frame and of all frames
beneath it. A result that is published later changes the frame in place, so the calls of its
finished callers are kept anew if it took reports away, and need not be if it did not. -/

namespace FrameAudit.Nesting

open Frames (get?_update_self get?_update_cases)

variable {n : Nesting} {s' : Analysis} {f g : FrameId} {r r' c : Frame} {change : Frame → Frame}

structure Coherent (n : Nesting) : Prop where
  tracked : n.Tracked
  /-- A call is analysed once, unless that is aborted. -/
  unique : ∀ ⦃f g r r'⦄, n.state.frames.Keeps f r → n.state.frames.Keeps g r' →
    f ∉ n.restored → g ∉ n.restored → r.signature = r'.signature → f = g
  kept : ∀ ⦃f r⦄, n.state.frames.Keeps f r → f ∉ n.restored → r.ledger.phase = .settled →
    n.state.cache.get? ⟨n.state.partition, r.signature⟩ = some (n.state.frames.callOf f r)

namespace Coherent

theorem start (config : Config) (cache : Cache) : Coherent { state := { config, cache } } where
  tracked := .start config cache
  unique _ _ _ _ h := by simpa [Frames.get?] using h.get?
  kept _ _ h := by simpa [Frames.get?] using h.get?

theorem unique_update (h : Coherent n) (hr : n.state.frames.get? f = some r)
    (hsame : ∀ r : Frame, r.SameCall (change r))
    (haborted : (change r).aborted = false → r.aborted = false) :
    ∀ ⦃g g' r r'⦄, (n.state.frames.update f change).Keeps g r →
      (n.state.frames.update f change).Keeps g' r' → g ∉ n.restored → g' ∉ n.restored →
      r.signature = r'.signature → g = g' := by
  intro g g' r₁ r₂ h₁ h₂ hg hg' hsig
  obtain ⟨r₁', h₁', hs₁⟩ := h₁.of_update hr hsame haborted
  obtain ⟨r₂', h₂', hs₂⟩ := h₂.of_update hr hsame haborted
  exact h.unique h₁' h₂' hg hg' (hs₁.signature.symm.trans (hsig.trans hs₂.signature))

/-- A frame that takes reports is not among the frames of a finished call. -/
theorem callOf_update_writable (h : Tracked n) (hsame : ∀ r : Frame, r.SameCall (change r))
    (hr : n.state.frames.get? f = some r) (hw : r.ledger.phase = .writable)
    (hg : n.state.frames.get? g = some r') (hs : r'.ledger.phase = .settled) :
    (n.state.frames.update f change).callOf g r' = n.state.frames.callOf g r' := by
  refine Frames.callOf_update h.wellFormed.linked hsame fun r'' hr'' hfg => ?_
  have hw' : r'.ledger.phase = .writable := by
    rcases hfg with rfl | hb
    · exact Option.some.inj (hr.symm.trans hg) ▸ hw
    · exact h.openCallers.beneath h.wellFormed.linked hb hr hw hg
  simp [hs] at hw'

/-- A frame that takes reports is changed so that its call is not kept. -/
theorem update_writable (h : Coherent n) (ht : Tracked { n with state := s' })
    (hf : s'.frames = n.state.frames.update f change) (hc : s'.cache = n.state.cache)
    (hp : s'.partition = n.state.partition) (hr : n.state.frames.get? f = some r)
    (hw : r.ledger.phase = .writable) (hsame : ∀ r : Frame, r.SameCall (change r))
    (haborted : (change r).aborted = false → r.aborted = false)
    (hkeeps : (change r).aborted = true ∨ (change r).ledger.phase = .writable) :
    Coherent { n with state := s' } := by
  refine ⟨ht, hf ▸ h.unique_update hr hsame haborted, fun g r' hg hnot hs => ?_⟩
  rw [hf] at hg
  rcases get?_update_cases hr hg.get? with ⟨-, rfl⟩ | ⟨-, hg'⟩
  · rcases hkeeps with hkeeps | hkeeps
    · simp [hg.aborted] at hkeeps
    · simp [hs] at hkeeps
  · have hkept := h.kept ⟨hg', hg.isEntry, hg.aborted⟩ hnot hs
    rw [hc, hp, hkept, hf, callOf_update_writable h.tracked hsame hr hw hg' hs]

theorem finish (h : Coherent n) (ht : Tracked { n with state := s' })
    (hf : s'.frames = n.state.frames.update f change)
    (hc : s'.cache = (n.state.frames.update f change).keepIn n.state.partition n.state.cache f)
    (hp : s'.partition = n.state.partition) (hr : n.state.frames.get? f = some r)
    (hw : r.ledger.phase = .writable) (hsame : ∀ r : Frame, r.SameCall (change r))
    (haborted : (change r).aborted = r.aborted) : Coherent { n with state := s' } := by
  have hunique := h.unique_update hr hsame (haborted ▸ id)
  refine ⟨ht, hf ▸ hunique, fun g r' hg hnot hs => ?_⟩
  rw [hf] at hg
  rw [hc, hp, hf]
  by_cases hgf : g = f
  · subst hgf
    exact Frames.get?_keepIn_of_keeps hg
  · have hg' : n.state.frames.get? g = some r' := by
      rw [← Frames.get?_update_of_ne hgf change]
      exact hg.get?
    have hnotf := h.tracked.notMem_restored hr hw
    have hkept := h.kept ⟨hg', hg.isEntry, hg.aborted⟩ hnot hs
    rw [Frames.get?_keepIn_of_ne, hkept, callOf_update_writable h.tracked hsame hr hw hg' hs]
    -- the two calls have different signatures
    intro r'' hr'' hslot
    exact hgf (hunique hg hr'' hnot hnotf (congrArg Cache.Slot.signature hslot))

/-- If nothing is retracted, the reports stay as they are. -/
theorem retracted_reports_eq {strictness : Strictness} {result : Ty}
    (h : ¬0 < Analysis.retractedBy strictness result r) :
    (r.retracted strictness result).ledger.reports = r.ledger.reports := by
  have hle : r.ledger.reports.length ≤ (r.retracted strictness result).ledger.reports.length := by
    unfold Analysis.retractedBy at h
    omega
  have hsub : (r.retracted strictness result).ledger.reports.Sublist r.ledger.reports := by
    unfold Frame.retracted
    split
    · exact List.filter_sublist
    · exact .refl _
  exact hsub.eq_of_length_le hle

theorem publish_settled (h : Coherent n) {result : Ty} (ht : Tracked { n with state := s' })
    (hf : s'.frames = n.state.frames.update f (Frame.published n.state.strictness result))
    (hc : s'.cache = (s'.frames.keptAnew f r.ledger.phase
        (Analysis.retractedBy n.state.strictness result r)).foldl
      (s'.frames.keepIn n.state.partition) n.state.cache)
    (hp : s'.partition = n.state.partition) (hr : n.state.frames.get? f = some r)
    (hs : r.ledger.phase = .settled) (hnotf : f ∉ n.restored) :
    Coherent { n with state := s' } := by
  have hsame := Frame.sameCall_published n.state.strictness result
  have haborted := r.aborted_published n.state.strictness result
  have hunique := h.unique_update hr hsame (haborted ▸ id)
  rw [← hf] at hunique
  have hrf : s'.frames.get? f = some (r.published n.state.strictness result) :=
    hf ▸ get?_update_self hr _
  have hl' : s'.frames.Linked := ht.wellFormed.linked
  have hmem : ∀ {k}, k ∈ s'.frames.keptAnew f r.ledger.phase
      (Analysis.retractedBy n.state.strictness result r) ↔ _ := Frames.mem_keptAnew hl' hrf hs
  have hnotkept : ∀ k ∈ s'.frames.keptAnew f r.ledger.phase
      (Analysis.retractedBy n.state.strictness result r), k ∉ n.restored := by
    intro k hk
    rcases hmem.1 hk with rfl | ⟨-, hb, -⟩
    · exact hnotf
    · exact ht.notMem_of_beneath hb
  refine ⟨ht, hunique, fun g r' hg hnot hsg => ?_⟩
  simp only at hg hsg ⊢
  rw [hc, hp]
  by_cases hkept : g ∈ s'.frames.keptAnew f r.ledger.phase
      (Analysis.retractedBy n.state.strictness result r)
  · refine Frames.get?_foldl_keepIn_of_keeps hg hkept fun k hk r'' hr'' hsig => ?_
    exact hunique hr'' hg (hnotkept k hk) hnot hsig
  · rw [Frames.get?_foldl_keepIn_of_ne]
    · have hgf : g ≠ f := fun heq => hkept (hmem.2 (.inl heq))
      have hg' : n.state.frames.get? g = some r' := by
        rw [← Frames.get?_update_of_ne hgf (Frame.published n.state.strictness result), ← hf]
        exact hg.get?
      rw [h.kept ⟨hg', hg.isEntry, hg.aborted⟩ hnot hsg, hf]
      refine congrArg some (Frames.callOf_update h.tracked.wellFormed.linked hsame ?_).symm
      intro r'' hr'' hfg
      obtain rfl := Option.some.inj (hr.symm.trans hr'')
      -- a caller of the frame is kept anew if something was retracted
      refine retracted_reports_eq fun hremoved =>
        hkept (hmem.2 (.inr ⟨hremoved, ?_, r', hg.get?, hsg⟩))
      rw [hf, Frames.Extends.beneath_iff (Frames.extends_update _ f hsame)
        h.tracked.wellFormed.linked (hf ▸ hl') hr]
      exact hfg.resolve_left (Ne.symm hgf)
    · intro k hk r'' hr'' hslot
      have := hunique hg hr'' hnot (hnotkept k hk) (congrArg Cache.Slot.signature hslot)
      exact hkept (this ▸ hk)

/-- A frame is opened whose call is not kept yet. -/
theorem concat (h : Coherent n) {analysed restored : List FrameId}
    (ht : Tracked ⟨s', analysed, restored⟩) (hf : s'.frames = n.state.frames ++ [c])
    (hc : s'.cache = n.state.cache) (hp : s'.partition = n.state.partition)
    (hsub : ∀ g ∈ n.restored, g ∈ restored)
    (hcaller : ∀ site, c.site = some site →
      ∃ c', n.state.frames.get? site.caller = some c' ∧ c'.ledger.phase = .writable)
    (hnew : n.state.nextFrame ∉ restored → c.isEntry = false → c.ledger.phase ≠ .settled ∧
      ∀ ⦃g r⦄, n.state.frames.Keeps g r → g ∉ n.restored → r.signature ≠ c.signature) :
    Coherent ⟨s', analysed, restored⟩ := by
  have hl := h.tracked.wellFormed.linked
  have hl' : Frames.Linked (n.state.frames ++ [c]) := hf ▸ ht.wellFormed.linked
  have hback : ∀ {g r}, s'.frames.Keeps g r → g ∉ restored →
      (g = n.state.nextFrame ∧ r = c ∧ c.isEntry = false) ∨
        (n.state.frames.Keeps g r ∧ g ∉ n.restored) := by
    intro g r hg hnot
    obtain ⟨hget, he, ha⟩ := hg
    rw [hf] at hget
    rcases Frames.get?_concat hget with ⟨hi, rfl⟩ | hget
    · obtain ⟨i⟩ := g
      exact .inl ⟨congrArg FrameId.mk hi, rfl, he⟩
    · exact .inr ⟨⟨hget, he, ha⟩, fun hmem => hnot (hsub g hmem)⟩
  refine ⟨ht, fun f g r r' hkf hkg hnf hng hsig => ?_, fun g r hg hnot hs => ?_⟩
  · rcases hback hkf hnf with ⟨rfl, rfl, hef⟩ | ⟨hkf', hnf'⟩
    · rcases hback hkg hng with ⟨rfl, -, -⟩ | ⟨hkg', hng'⟩
      · rfl
      · exact absurd hsig.symm ((hnew hnf hef).2 hkg' hng')
    · rcases hback hkg hng with ⟨rfl, rfl, heg⟩ | ⟨hkg', hng'⟩
      · exact absurd hsig ((hnew hng heg).2 hkf' hnf')
      · exact h.unique hkf' hkg' hnf' hng' hsig
  · rcases hback hg hnot with ⟨rfl, rfl, he⟩ | ⟨hg', hnot'⟩
    · exact absurd hs (hnew hnot he).1
    · have hb : ¬Frames.Beneath (n.state.frames ++ [c]) ⟨n.state.frames.length⟩ g := by
        intro hb
        cases hsite : c.site with
        | none =>
          have he := hb.isEntry hl' (Frames.get?_concat_length ..)
          have hc := (hl'.isEntry_iff (Frames.get?_concat_length ..)).2 hsite
          simp [he] at hc
        | some site =>
          obtain ⟨c', hc', hw⟩ := hcaller site hsite
          have hw' := h.tracked.openCallers.opened hl hl' hsite hc' hw hg'.get? hb
          simp [hs] at hw'
      have hkept := h.kept hg' hnot' hs
      simp only
      rw [hc, hp, hkept, hf, Frames.callOf_concat hl hl' hg'.get? hb]

theorem after (h : Coherent n) {op : Operation} (hop : n.Admits op) : Coherent (n.after op) := by
  have hwf := h.tracked.wellFormed
  have ht := h.tracked.after hop
  have hstep := Analysis.step_cases hwf.linked op
  unfold Nesting.after at ht ⊢
  generalize n.state.step op = res at hstep ht
  cases hstep with
  | failed => exact ⟨ht, h.unique, h.kept⟩
  | answered _ answer _ hans =>
    rw [take_answer hans] at ht ⊢
    exact ⟨ht, h.unique, h.kept⟩
  | noted _ answer f r _ _ _ hans hr ha hw _ =>
    rw [take_answer hans] at ht ⊢
    exact h.update_writable ht rfl rfl rfl hr hw (Frame.sameCall_note _) id (.inr hw)
  | entry =>
    refine h.concat ht rfl rfl rfl (fun _ => id) (fun site hs => ?_) fun _ he => ?_
    · cases hs
    · cases he
  | analyze signature site c _ hc _ hon hk =>
    obtain ⟨c', hc', hw⟩ := hwf.writable_of_last hop
    refine h.concat ht rfl rfl rfl (fun _ => id) (fun site' hs => ?_) fun _ _ => ⟨?_, ?_⟩
    · cases hs
      exact ⟨c', hc', hw⟩
    · simp [Frame.callee]
    · -- a frame of the same signature would be on the stack, or its call in the cache
      rintro g r hg hnot rfl
      cases hphase : r.ledger.phase with
      | writable =>
        have hmem := (hwf.mem_stack g).2 ⟨r, hg.get?, hphase⟩
        exact Analysis.onStack?_eq_none.1 hon g hmem r hg.get? rfl
      | settled =>
        have hkept := h.kept hg hnot hphase
        rw [show n.state.cache.get? ⟨n.state.partition, r.signature⟩ = none from hk] at hkept
        cases hkept
      | frozen => exact h.tracked.unfrozen hg.get? hphase
  | restored signature site c call _ hc _ _ _ =>
    obtain ⟨c', hc', hw⟩ := hwf.writable_of_last hop
    refine h.concat ht rfl rfl rfl (fun g hg => List.mem_append_left _ hg) (fun site' hs => ?_)
      fun hnot => ?_
    · cases hs
      exact ⟨c', hc', hw⟩
    · exact absurd (List.mem_append_right _ List.mem_cons_self) hnot
  | aborted f r _ _ _ _ hr _ hw =>
    exact h.update_writable ht rfl rfl rfl hr hw (Frame.sameCall_failed _ _ _)
      (fun hfalse => by cases hfalse) (.inl rfl)
  | finished f r result body _ hr _ hw =>
    exact h.finish ht rfl rfl rfl hr hw (Frame.sameCall_finished _ _ _ _)
      (r.aborted_finished _ _ _ _)
  | published f r result _ hr _ hf =>
    have hphase : r.ledger.phase = .writable ∨ r.ledger.phase = .settled := by
      cases hphase : r.ledger.phase with
      | writable => exact .inl rfl
      | settled => exact .inr rfl
      | frozen => exact absurd hphase hf
    rcases hphase with hw | hs
    · refine h.update_writable ht rfl ?_ rfl hr hw (Frame.sameCall_published _ _)
        (r.aborted_published _ _ ▸ id) (.inr ((r.phase_published _ _).trans hw))
      simp only [Frames.keptAnew, hw, reduceCtorEq, if_false, List.foldl_nil]
    · exact h.publish_settled ht rfl rfl rfl hr hs hop
  | frozen => exact hop.elim

theorem run (h : Coherent n) {ops : List Operation} (hops : n.AdmitsAll ops) :
    Coherent (n.run ops) := by
  induction ops generalizing n with
  | nil => exact h
  | cons op ops ih => exact ih (h.after hops.1) hops.2

end Coherent

/-- Whatever cache a properly nested run starts from, at every point of the run the call of each
frame that was to be analysed, was not aborted and is settled is kept with the current result of the
frame and the current reports of the frame and all frames beneath it, in the order of the frames and
as they are seen from the frame. -/
theorem cached_eq_current (config : Config) (cache : Cache) {ops : List Operation}
    (hops : AdmitsAll { state := { config, cache } } ops) {f : FrameId} {r : Frame}
    (hf : f ∈ (run { state := { config, cache } } ops).analysed)
    (hr : (run { state := { config, cache } } ops).state.frames.get? f = some r)
    (ha : r.aborted = false) (hs : r.ledger.phase = .settled) :
    let s := (run { state := { config, cache } } ops).state
    s.cache.get? ⟨s.partition, r.signature⟩ =
      some ⟨r.result, s.frames.reportsWhere (fun g => g = f ∨ s.frames.Beneath g f) r.depth⟩ := by
  have h := (Coherent.start config cache).run hops
  obtain ⟨hnot, r', hr', he⟩ := h.tracked.analysed f hf
  obtain rfl := Option.some.inj (hr.symm.trans hr')
  have hkept := h.kept ⟨hr, he, ha⟩ hnot hs
  rwa [Frames.callOf, h.tracked.wellFormed.linked.subtreeReports_eq] at hkept

/-- A call within a call is finished without a value and with two reports, and gets a value after
its caller was finished. -/
def publishedBeneath : List Operation :=
  [.enterEntry ⟨"main", []⟩,
   .enterCall ⟨"outer", []⟩ ⟨⟨0⟩, ⟨"m.jl", 1⟩⟩,
   .enterCall ⟨"inner", []⟩ ⟨⟨1⟩, ⟨"m.jl", 10⟩⟩,
   .readGlobal ⟨2⟩ ⟨"m.jl", 20⟩ "Main" "x" false,
   .finishFrame ⟨2⟩ .bottom [.raise ⟨"m.jl", 21⟩ "error(x)"],
   .finishFrame ⟨1⟩ .any [],
   .publishResult ⟨2⟩ .any]

theorem cached_eq_current_publishedBeneath :
    let start : Nesting := { state := { config := {} } }
    let s := (start.run publishedBeneath).state
    let current := s.frames.reportsWhere (fun g => g = ⟨1⟩ ∨ s.frames.Beneath g ⟨1⟩) 1
    start.AdmitsAll publishedBeneath ∧ ⟨1⟩ ∈ (start.run publishedBeneath).analysed ∧
      s.cache.get? ⟨s.partition, ⟨"outer", []⟩⟩ = some ⟨.any, current⟩ ∧
      current = [⟨[⟨⟨"outer", []⟩, ⟨"m.jl", 10⟩⟩, ⟨⟨"inner", []⟩, ⟨"m.jl", 20⟩⟩],
        .globalUndefVar "Main" "x"⟩] := by
  have hops : AdmitsAll { state := { config := {} } } publishedBeneath := by decide
  have hmem : ⟨1⟩ ∈ (run { state := { config := {} } } publishedBeneath).analysed := by decide
  let outer : Frame := { Frame.callee ⟨"outer", []⟩ ⟨⟨0⟩, ⟨"m.jl", 1⟩⟩ 1 with
    result := .any, ledger := ⟨[], .settled⟩ }
  have houter : (run { state := { config := {} } } publishedBeneath).state.frames.get? ⟨1⟩ =
      some outer := by decide
  have hkept := cached_eq_current {} {} hops hmem houter rfl rfl
  have hentry : (run { state := { config := {} } } publishedBeneath).state.cache.get?
      ⟨Config.partition {}, ⟨"outer", []⟩⟩ = some ⟨.any,
        [⟨[⟨⟨"outer", []⟩, ⟨"m.jl", 10⟩⟩, ⟨⟨"inner", []⟩, ⟨"m.jl", 20⟩⟩],
          .globalUndefVar "Main" "x"⟩]⟩ := by decide
  have heq := Option.some.inj (hkept.symm.trans hentry)
  exact ⟨hops, hmem, hkept, congrArg CachedCall.reports heq⟩

end FrameAudit.Nesting
