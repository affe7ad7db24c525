import FrameAudit.Proofs.Analysis.History
import FrameAudit.Proofs.Session.KeptCalls

/-! # Calls are analysed once

As long as nothing is frozen, a frame of a callee is on the stack, kept in the cache or aborted. A
call that is entered again finds the frame on the stack or the kept call, so it has to be analysed
only if all earlier frames of it were aborted. This holds on every cache and for every order of
operations, with frames finished or refined out of turn. -/

namespace FrameAudit.Analysis

variable {s s' a : Analysis} {op : Operation} {ops : List Operation} {f g i j : FrameId}
  {r : Frame} {signature : Signature} {site : CallSite} {t t' : Nat} {entered : Entered}
  {res : EStateM.Result Fault Analysis Answer}

/-- The frames of a run without a freeze: none is frozen, and the calls of settled ones are kept. -/
structure Unfrozen (s : Analysis) : Prop where
  wellFormed : WellFormed s
  phase : s.frames.All fun r => r.ledger.phase ≠ .frozen
  settled : ∀ ⦃f r⦄, s.frames.Keeps f r → r.ledger.phase = .settled → s.IsKept r.signature

theorem Step.unfrozen (h : Step s op res) (hop : op ≠ .freeze)
    (hs : s.frames.All fun r => r.ledger.phase ≠ .frozen) :
    (leaves res).frames.All fun r => r.ledger.phase ≠ .frozen := by
  cases h with
  | failed | answered => exact hs
  | noted _ _ f r _ _ _ _ hr _ hw _ =>
    have hphase := hs hr
    exact hs.update hr hphase
  | entry | analyze => exact hs.concat (by simp [Frame.entry, Frame.callee])
  | restored => exact hs.concat (by simp [Frame.restored])
  | aborted f r _ _ _ _ hr _ _ => exact hs.update hr (by simp [Frame.failed, Frame.closed])
  | finished f r _ _ _ hr _ _ => exact hs.update hr (by simp)
  | published f r _ _ hr _ hf => exact hs.update hr (by simpa using hf)
  | frozen => exact absurd rfl hop

namespace Unfrozen

theorem start (config : Config) (cache : Cache) : Unfrozen { config, cache } where
  wellFormed := .start config cache
  phase := .nil _
  settled _ _ hr := by simpa [Frames.get?] using hr.get?

theorem after (h : Unfrozen s) (hop : op ≠ .freeze) : Unfrozen (s.after op) := by
  have hwell := h.wellFormed.after op
  have hstep := step_cases h.wellFormed.linked op
  rw [after_eq] at hwell ⊢
  exact ⟨hwell, hstep.unfrozen hop h.phase, hstep.settled_isKept h.settled⟩

theorem run (h : Unfrozen s) (hops : Operation.freeze ∉ ops) : Unfrozen (s.run ops) := by
  induction ops generalizing s with
  | nil => exact h
  | cons op ops ih =>
    rw [List.mem_cons, not_or] at hops
    exact ih (h.after (Ne.symm hops.1)) hops.2

/-- Where a call has to be analysed, every frame of it that there is was aborted. -/
theorem aborted_of_analyze (h : Unfrozen s)
    (hstep : s.step (.enterCall signature site) = .ok (.entered (.analyze j)) s')
    (hr : s.frames.get? i = some r) (he : r.isEntry = false) (hsig : r.signature = signature) :
    r.aborted = true := by
  have hcases := step_cases h.wellFormed.linked (.enterCall signature site)
  rw [hstep] at hcases
  cases hcases with
  | answered _ _ _ hans | noted _ _ _ _ _ _ _ hans => cases hans
  | analyze _ _ c _ _ _ hon hk =>
    by_contra ha
    have hkeeps : s.frames.Keeps i r := ⟨hr, he, Bool.eq_false_iff.2 ha⟩
    cases hphase : r.ledger.phase with
    | writable =>
      have hmem := (h.wellFormed.mem_stack i).2 ⟨r, hr, hphase⟩
      exact onStack?_eq_none.1 hon i hmem r hr hsig
    | settled =>
      have hkept := h.settled hkeeps hphase
      rw [IsKept, hsig, hk] at hkept
      cases hkept
    | frozen => exact h.phase hr hphase

end Unfrozen

/-! ## The calls that a run enters -/

/-- The operation number `t` of a run enters a call of the signature, and this is the answer. -/
def EntersAt (a : Analysis) (ops : List Operation) (t : Nat) (signature : Signature)
    (entered : Entered) : Prop :=
  ∃ site s', ops[t]? = some (.enterCall signature site) ∧
    (a.run (ops.take t)).step (.enterCall signature site) = .ok (.entered entered) s'

theorem WellFormed.advance_take (h : WellFormed s) (ops : List Operation) (ht : t ≤ t') :
    (s.run (ops.take t)).frames.Advance s.strictness (s.run (ops.take t')).frames := by
  have hsplit := List.take_append_drop t (ops.take t')
  rw [List.take_take, Nat.min_eq_left ht] at hsplit
  have hadvance := (h.run (ops.take t)).advance_run ((ops.take t').drop t)
  rw [← run_append, hsplit, strictness, h.config_run] at hadvance
  exact hadvance

theorem EntersAt.lt_length (h : EntersAt a ops t signature entered) : t < ops.length := by
  obtain ⟨site, s', hop, -⟩ := h
  exact (List.getElem?_eq_some_iff.1 hop).1

/-- A frame that is left to be analysed is there right afterwards, as the frame of a callee. -/
theorem EntersAt.exists_frame (h : EntersAt a ops t signature (.analyze j))
    (hwell : WellFormed a) :
    (∃ r, (a.run (ops.take (t + 1))).frames.get? j = some r ∧ r.isEntry = false ∧
      r.signature = signature) ∧ j = (a.run (ops.take t)).nextFrame := by
  obtain ⟨site, s', hop, hstep⟩ := h
  have hnext : a.run (ops.take (t + 1)) = s' := by
    rw [List.take_add_one, hop, run_append]
    exact after_ok hstep
  have hcases := step_cases (hwell.run (ops.take t)).linked (.enterCall signature site)
  rw [hstep] at hcases
  rw [hnext]
  cases hcases with
  | answered _ _ _ hans | noted _ _ _ _ _ _ _ hans => cases hans
  | analyze => exact ⟨⟨_, Frames.get?_concat_length .., rfl, rfl⟩, rfl⟩

/-- Nothing was frozen before a call is entered, if nothing is frozen before the end. -/
theorem EntersAt.unfrozen (h : EntersAt a ops t signature entered) (ha : Unfrozen a)
    (hops : Operation.freeze ∉ ops.dropLast) : Unfrozen (a.run (ops.take t)) := by
  refine ha.run fun hmem => hops ?_
  have ht := h.lt_length
  rw [List.dropLast_eq_take]
  exact (List.take_subset_take_left ops (by omega)) hmem

/-- If a call has to be analysed again, the frame of the first time was aborted before. -/
theorem EntersAt.aborted_before (h : EntersAt a ops t signature (.analyze f))
    (h' : EntersAt a ops t' signature (.analyze g)) (ht : t < t') (ha : Unfrozen a)
    (hops : Operation.freeze ∉ ops.dropLast) :
    ∃ q, (a.run (ops.take t')).frames.get? f = some q ∧ q.aborted = true := by
  obtain ⟨⟨r, hr, he, hsig⟩, -⟩ := h.exists_frame ha.wellFormed
  obtain ⟨q, hq, hadv⟩ := ha.wellFormed.advance_take ops ht f r hr
  have hmid := h'.unfrozen ha hops
  obtain ⟨site, s', -, hstep⟩ := h'
  have haborted := hmid.aborted_of_analyze hstep hq (hadv.sameCall.isEntry.trans he)
    (hadv.sameCall.signature.trans hsig)
  exact ⟨q, hq, haborted⟩

/-- A frame that is not aborted in the end never was. -/
theorem EntersAt.not_aborted_before (h : EntersAt a ops t signature entered)
    (ha : WellFormed a) (hr : (a.run ops).frames.get? f = some r) (hlive : r.aborted = false) :
    ¬∃ q, (a.run (ops.take t)).frames.get? f = some q ∧ q.aborted = true := by
  rintro ⟨q, hq, haborted⟩
  obtain ⟨r', hr', hadv⟩ := ha.advance_take ops (Nat.le_of_lt h.lt_length) f q hq
  rw [List.take_length] at hr'
  obtain rfl := Option.some.inj (hr.symm.trans hr')
  cases hlive.symm.trans (hadv.aborted haborted).1

/-- In a run on any cache where nothing is frozen before the end: if a call has to be analysed, all
earlier frames of it, entries apart, had been aborted by then. So at most one of the frames that a
call was analysed in is not aborted, and if there is one, the call was answered from the cache or by
a cycle whenever else it was entered, unless the frame of that time had been aborted before. -/
theorem no_call_analysed_twice (config : Config) (cache : Cache)
    (hops : Operation.freeze ∉ ops.dropLast) :
    let a : Analysis := { config, cache }
    (∀ t signature j, a.EntersAt ops t signature (.analyze j) → ∀ i r, i.index < j.index →
      (a.run ops).frames.get? i = some r → r.isEntry = false → r.signature = signature →
      ∃ q, (a.run (ops.take t)).frames.get? i = some q ∧ q.aborted = true) ∧
    (∀ t t' signature f g r r', a.EntersAt ops t signature (.analyze f) →
      a.EntersAt ops t' signature (.analyze g) →
      (a.run ops).frames.get? f = some r → r.aborted = false →
      (a.run ops).frames.get? g = some r' → r'.aborted = false → t = t' ∧ f = g) ∧
    (∀ t t' signature f r entered, a.EntersAt ops t signature (.analyze f) →
      (a.run ops).frames.get? f = some r → r.aborted = false →
      a.EntersAt ops t' signature entered → t' ≠ t →
      (∃ g result, entered = .cached g result) ∨ (∃ g result, entered = .cycle g result) ∨
        t' < t ∧ ∃ g q, entered = .analyze g ∧
          (a.run (ops.take t)).frames.get? g = some q ∧ q.aborted = true) := by
  intro a
  have ha : Unfrozen a := .start config cache
  have hwell := ha.wellFormed
  clear_value a
  -- a live frame that a call was analysed in is that of the last time
  have hlast : ∀ {t t' signature f g r}, a.EntersAt ops t signature (.analyze f) →
      a.EntersAt ops t' signature (.analyze g) → (a.run ops).frames.get? f = some r →
      r.aborted = false → t' ≤ t := by
    intro t t' signature f g r hf hg hr hlive
    by_contra hlt
    exact hg.not_aborted_before hwell hr hlive
      (hf.aborted_before hg (Nat.lt_of_not_le hlt) ha hops)
  refine ⟨?_, ?_, ?_⟩
  · intro t signature j hj i r hlt hr he hsig
    obtain ⟨-, rfl⟩ := hj.exists_frame hwell
    obtain ⟨q, hq⟩ : ∃ q, (a.run (ops.take t)).frames.get? i = some q :=
      ⟨_, List.getElem?_eq_getElem hlt⟩
    obtain ⟨r', hr', hadv⟩ := hwell.advance_take ops (Nat.le_of_lt hj.lt_length) i q hq
    rw [List.take_length] at hr'
    obtain rfl := Option.some.inj (hr.symm.trans hr')
    have hmid := hj.unfrozen ha hops
    obtain ⟨site, s', -, hstep⟩ := hj
    exact ⟨q, hq, hmid.aborted_of_analyze hstep hq (hadv.sameCall.isEntry.symm.trans he)
      (hadv.sameCall.signature.symm.trans hsig)⟩
  · intro t t' signature f g r r' hf hg hr hlive hr' hlive'
    obtain rfl : t = t' := Nat.le_antisymm (hlast hg hf hr' hlive') (hlast hf hg hr hlive)
    exact ⟨rfl, (hf.exists_frame hwell).2.trans (hg.exists_frame hwell).2.symm⟩
  · intro t t' signature f r entered hf hr hlive hg hne
    cases entered with
    | cached g result => exact .inl ⟨g, result, rfl⟩
    | cycle g result => exact .inr (.inl ⟨g, result, rfl⟩)
    | analyze g =>
      have hlt : t' < t := Nat.lt_of_le_of_ne (hlast hf hg hr hlive) hne
      obtain ⟨q, hq, haborted⟩ := hg.aborted_before hf hlt ha hops
      exact .inr (.inr ⟨hlt, g, q, rfl, hq, haborted⟩)

/-- A call is aborted and entered again, calls itself, is finished, and is entered once more. -/
def abortedThenAnalysed : List Operation :=
  [.enterEntry ⟨"main", []⟩,
   .enterCall ⟨"callee", []⟩ ⟨⟨0⟩, ⟨"m.jl", 1⟩⟩,
   .abortFrame ⟨1⟩ ⟨"m.jl", 10⟩ ⟨"ErrorException", "no body"⟩,
   .enterCall ⟨"callee", []⟩ ⟨⟨0⟩, ⟨"m.jl", 2⟩⟩,
   .enterCall ⟨"callee", []⟩ ⟨⟨2⟩, ⟨"m.jl", 11⟩⟩,
   .finishFrame ⟨2⟩ .any [],
   .enterCall ⟨"callee", []⟩ ⟨⟨0⟩, ⟨"m.jl", 3⟩⟩,
   .freeze]

theorem no_call_analysed_twice_abortedThenAnalysed :
    let a : Analysis := { config := {}, cache := {} }
    Operation.freeze ∉ abortedThenAnalysed.dropLast ∧
      a.EntersAt abortedThenAnalysed 1 ⟨"callee", []⟩ (.analyze ⟨1⟩) ∧
      a.EntersAt abortedThenAnalysed 3 ⟨"callee", []⟩ (.analyze ⟨2⟩) ∧
      a.EntersAt abortedThenAnalysed 4 ⟨"callee", []⟩ (.cycle ⟨2⟩ .bottom) ∧
      a.EntersAt abortedThenAnalysed 6 ⟨"callee", []⟩ (.cached ⟨3⟩ .any) ∧
      (∃ q, (a.run (abortedThenAnalysed.take 3)).frames.get? ⟨1⟩ = some q ∧ q.aborted = true) ∧
      ∀ t entered, a.EntersAt abortedThenAnalysed t ⟨"callee", []⟩ entered → 3 < t →
        (∃ g result, entered = .cached g result) ∨ ∃ g result, entered = .cycle g result := by
  have hops : Operation.freeze ∉ abortedThenAnalysed.dropLast := by decide
  have hfirst : EntersAt { config := {}, cache := {} } abortedThenAnalysed 1 ⟨"callee", []⟩
      (.analyze ⟨1⟩) := ⟨_, _, rfl, rfl⟩
  have hagain : EntersAt { config := {}, cache := {} } abortedThenAnalysed 3 ⟨"callee", []⟩
      (.analyze ⟨2⟩) := ⟨_, _, rfl, rfl⟩
  obtain ⟨haborted, -, hothers⟩ := no_call_analysed_twice {} {} hops
  refine ⟨hops, hfirst, hagain, ⟨_, _, rfl, rfl⟩, ⟨_, _, rfl, rfl⟩, ?_, ?_⟩
  · exact haborted 3 _ ⟨2⟩ hagain ⟨1⟩ _ (by decide) rfl rfl rfl
  · intro t entered ht hlt
    rcases hothers 3 t _ ⟨2⟩ _ entered hagain rfl rfl ht (by omega) with h | h | ⟨hbefore, -⟩
    · exact .inl h
    · exact .inr h
    · omega

end FrameAudit.Analysis
