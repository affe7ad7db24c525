import FrameAudit.Proofs.Analysis.WellFormed

/-! # Properly nested runs

In a properly nested run only the innermost frame on the stack makes calls and is finished or
aborted, results are published only for frames that the run analysed itself, and nothing is frozen.
Then the callers of a frame on the stack are on the stack too, and the frames that were filled from
the cache call nothing. -/

namespace FrameAudit

/-- An analysis with the frames that it had to analyse and those that were filled from the cache. -/
structure Nesting where
  state : Analysis
  analysed : List FrameId := []
  restored : List FrameId := []

namespace Nesting

/-- What an operation leaves, and which frame it opened. -/
def take (n : Nesting) : EStateM.Result Fault Analysis Answer → Nesting
  | .ok (.entered (.analyze f)) s => { n with state := s, analysed := n.analysed ++ [f] }
  | .ok (.entered (.cached f _)) s => { n with state := s, restored := n.restored ++ [f] }
  | .ok _ s | .error _ s => { n with state := s }

def after (n : Nesting) (op : Operation) : Nesting := n.take (n.state.step op)

def run (n : Nesting) (ops : List Operation) : Nesting := ops.foldl after n

/-- The operation keeps the run properly nested. -/
def Admits (n : Nesting) : Operation → Prop
  | .enterCall _ site => n.state.stack.getLast? = some site.caller
  | .finishFrame f _ _ | .abortFrame f _ _ => n.state.stack.getLast? = some f
  | .publishResult f _ => f ∉ n.restored
  | .freeze => False
  | _ => True

instance (n : Nesting) (op : Operation) : Decidable (n.Admits op) := by
  unfold Admits
  split <;> infer_instance

/-- The operations are properly nested. -/
def AdmitsAll (n : Nesting) : List Operation → Prop
  | [] => True
  | op :: ops => n.Admits op ∧ (n.after op).AdmitsAll ops

instance decidableAdmitsAll (n : Nesting) : (ops : List Operation) → Decidable (n.AdmitsAll ops)
  | [] => .isTrue trivial
  | op :: ops =>
    have := decidableAdmitsAll (n.after op) ops
    inferInstanceAs (Decidable (n.Admits op ∧ (n.after op).AdmitsAll ops))

end Nesting

namespace Frames

variable {frames : Frames} {f g : FrameId} {r r' c : Frame} {site : CallSite}

/-- A frame that takes reports was called from one that does. -/
def OpenCallers (frames : Frames) : Prop :=
  ∀ ⦃f r site c⦄, frames.get? f = some r → r.ledger.phase = .writable → r.site = some site →
    frames.get? site.caller = some c → c.ledger.phase = .writable

theorem OpenCallers.beneath (h : OpenCallers frames) (hl : Linked frames)
    (hb : Beneath frames g f) (hg : frames.get? g = some r) (hw : r.ledger.phase = .writable)
    (hf : frames.get? f = some r') : r'.ledger.phase = .writable := by
  induction hb generalizing r with
  | direct hr hs =>
    obtain rfl := Option.some.inj (hg.symm.trans hr)
    exact h hg hw hs hf
  | through hr hs _ ih =>
    obtain rfl := Option.some.inj (hg.symm.trans hr)
    obtain ⟨-, -, c, hc, -⟩ := hl.callee hr hs
    exact ih hc (h hg hw hs hc) hf

/-- What is above a newly opened frame takes reports if its caller does. -/
theorem OpenCallers.opened (h : OpenCallers frames) (hl : Linked frames)
    (hl' : Linked (frames ++ [r])) (hs : r.site = some site)
    (hc : frames.get? site.caller = some c) (hw : c.ledger.phase = .writable)
    (hf : frames.get? f = some r') (hb : Beneath (frames ++ [r]) ⟨frames.length⟩ f) :
    r'.ledger.phase = .writable := by
  have hlast := get?_concat_length frames r
  cases hb with
  | direct hr hs' =>
    obtain rfl := Option.some.inj (hlast.symm.trans hr)
    obtain rfl := Option.some.inj (hs.symm.trans hs')
    obtain rfl := Option.some.inj (hc.symm.trans hf)
    exact hw
  | through hr hs' hb =>
    obtain rfl := Option.some.inj (hlast.symm.trans hr)
    obtain rfl := Option.some.inj (hs.symm.trans hs')
    exact h.beneath hl ((Extends.beneath_iff (extends_append frames [r]) hl hl' hc).1 hb) hc hw hf

end Frames

namespace Analysis.WellFormed

variable {s : Analysis} {f g : FrameId}

theorem le_last (h : WellFormed s) (hlast : s.stack.getLast? = some f) (hg : g ∈ s.stack) :
    g.index ≤ f.index := by
  obtain ⟨above, habove⟩ := List.getLast?_eq_some_iff.1 hlast
  have hasc := h.ascending
  rw [habove] at hg hasc
  rcases List.mem_append.1 hg with hg | hg
  · exact Nat.le_of_lt ((List.pairwise_append.1 hasc).2.2 g hg f List.mem_cons_self)
  · exact Nat.le_of_eq (congrArg _ (List.mem_singleton.1 hg))

/-- Nothing on the stack was called from the innermost frame. -/
theorem caller_ne_last (h : WellFormed s) (hlast : s.stack.getLast? = some f) {r : Frame}
    {site : CallSite} (hr : s.frames.get? g = some r) (hw : r.ledger.phase = .writable)
    (hs : r.site = some site) : site.caller ≠ f := by
  have hle := h.le_last hlast ((h.mem_stack g).2 ⟨r, hr, hw⟩)
  have hlt := (h.linked.callee hr hs).2.1
  rintro rfl
  omega

theorem writable_of_last (h : WellFormed s) (hlast : s.stack.getLast? = some f) :
    ∃ r, s.frames.get? f = some r ∧ r.ledger.phase = .writable :=
  (h.mem_stack f).1 (List.mem_of_getLast? hlast)

end Analysis.WellFormed

namespace Nesting

open Frames (get?_update_self get?_update_cases)

variable {n : Nesting} {s' : Analysis} {f g : FrameId} {r c : Frame} {change : Frame → Frame}

/-- What is known of the frames of a properly nested run. -/
structure Tracked (n : Nesting) : Prop where
  wellFormed : n.state.WellFormed
  unfrozen : n.state.frames.All fun r => r.ledger.phase ≠ .frozen
  openCallers : n.state.frames.OpenCallers
  analysed : ∀ f ∈ n.analysed, f ∉ n.restored ∧
    ∃ r, n.state.frames.get? f = some r ∧ r.isEntry = false
  restored : ∀ f ∈ n.restored, ∃ r, n.state.frames.get? f = some r ∧ r.ledger.phase ≠ .writable
  callers : ∀ ⦃f r site⦄, n.state.frames.get? f = some r → r.site = some site →
    site.caller ∉ n.restored

namespace Tracked

theorem start (config : Config) (cache : Cache) : Tracked { state := { config, cache } } where
  wellFormed := .start config cache
  unfrozen := .nil _
  openCallers _ _ _ _ hr := by simp [Frames.get?] at hr
  analysed _ hf := absurd hf List.not_mem_nil
  restored _ hf := absurd hf List.not_mem_nil
  callers _ _ _ _ _ := List.not_mem_nil

/-- Frames that take reports are not filled from the cache. -/
theorem notMem_restored (h : Tracked n) (hr : n.state.frames.get? f = some r)
    (hw : r.ledger.phase = .writable) : f ∉ n.restored := by
  intro hf
  obtain ⟨r', hr', hw'⟩ := h.restored f hf
  obtain rfl := Option.some.inj (hr.symm.trans hr')
  exact hw' hw

/-- What is above a frame is not filled from the cache. -/
theorem notMem_of_beneath (h : Tracked n) (hb : n.state.frames.Beneath f g) : g ∉ n.restored := by
  induction hb with
  | direct hr hs => exact h.callers hr hs
  | through _ _ _ ih => exact ih

theorem update (h : Tracked n) (hwf : s'.WellFormed)
    (hf : s'.frames = n.state.frames.update f change)
    (hr : n.state.frames.get? f = some r) (hsame : ∀ r : Frame, r.SameCall (change r))
    (hunfrozen : (change r).ledger.phase ≠ .frozen)
    (hclosed : r.ledger.phase ≠ .writable → (change r).ledger.phase ≠ .writable)
    (hcalls : (change r).ledger.phase = .writable ∨ ∀ ⦃g r' site⦄, n.state.frames.get? g = some r' →
      r'.ledger.phase = .writable → r'.site = some site → site.caller ≠ f) :
    Tracked { n with state := s' } := by
  have hget : ∀ {g r'}, n.state.frames.get? g = some r' → ∃ r'', s'.frames.get? g = some r'' ∧
      r'.SameCall r'' ∧ (r'.ledger.phase ≠ .writable → r''.ledger.phase ≠ .writable) := by
    intro g r' hr'
    rw [hf]
    by_cases hgf : g = f
    · subst hgf
      obtain rfl := Option.some.inj (hr.symm.trans hr')
      exact ⟨_, get?_update_self hr _, hsame r, hclosed⟩
    · exact ⟨r', (Frames.get?_update_of_ne hgf _).trans hr', .refl r', id⟩
  have hback : ∀ {g r''}, s'.frames.get? g = some r'' → ∃ r', n.state.frames.get? g = some r' ∧
      r'.SameCall r'' ∧ (r''.ledger.phase = .writable → r'.ledger.phase = .writable) := by
    intro g r'' hr''
    rw [hf] at hr''
    rcases get?_update_cases hr hr'' with ⟨rfl, rfl⟩ | ⟨-, hr''⟩
    · exact ⟨r, hr, hsame r, fun hw => by_contra fun hw' => hclosed hw' hw⟩
    · exact ⟨r'', hr'', .refl r'', id⟩
  refine ⟨hwf, ?_, ?_, fun g hg => ?_, fun g hg => ?_, fun g r'' site hr'' hs => ?_⟩
  · rw [hf]
    exact h.unfrozen.update hr hunfrozen
  · intro g r'' site c hg hw hs hc
    obtain ⟨r', hr', hsame', hw'⟩ := hback hg
    obtain ⟨c', hc', -⟩ := hback hc
    have hopen := h.openCallers hr' (hw' hw) (hsame'.site ▸ hs) hc'
    rw [hf] at hc
    rcases get?_update_cases hr hc with ⟨hcf, rfl⟩ | ⟨-, hc⟩
    · rcases hcalls with hcalls | hcalls
      · exact hcalls
      · exact absurd hcf (hcalls hr' (hw' hw) (hsame'.site ▸ hs))
    · obtain rfl := Option.some.inj (hc.symm.trans hc')
      exact hopen
  · obtain ⟨hnot, r', hr', he⟩ := h.analysed g hg
    obtain ⟨r'', hr'', hsame', -⟩ := hget hr'
    exact ⟨hnot, r'', hr'', hsame'.isEntry.trans he⟩
  · obtain ⟨r', hr', hw⟩ := h.restored g hg
    obtain ⟨r'', hr'', -, hclosed'⟩ := hget hr'
    exact ⟨r'', hr'', hclosed' hw⟩
  · obtain ⟨r', hr', hsame', -⟩ := hback hr''
    exact h.callers hr' (hsame'.site ▸ hs)

theorem concat (h : Tracked n) (hwf : s'.WellFormed) (hf : s'.frames = n.state.frames ++ [c])
    (hunfrozen : c.ledger.phase ≠ .frozen)
    (hcaller : ∀ site, c.site = some site →
      ∃ c', n.state.frames.get? site.caller = some c' ∧ c'.ledger.phase = .writable)
    {analysed restored : List FrameId}
    (hrestored : ∀ g ∈ restored,
      g ∈ n.restored ∨ g = n.state.nextFrame ∧ c.ledger.phase ≠ .writable)
    (hanalysed : ∀ g ∈ analysed, g ∈ n.analysed ∨
      g = n.state.nextFrame ∧ c.isEntry = false ∧ g ∉ n.restored ∧ restored = n.restored) :
    Tracked ⟨s', analysed, restored⟩ := by
  have hlast : s'.frames.get? n.state.nextFrame = some c := hf ▸ Frames.get?_concat_length ..
  have hget : ∀ {g r}, n.state.frames.get? g = some r → s'.frames.get? g = some r :=
    fun hr => hf ▸ Frames.get?_append_of_some hr _
  have hnext : ∀ {g r}, n.state.frames.get? g = some r → g ≠ n.state.nextFrame := by
    rintro g r hr rfl
    simp [Analysis.nextFrame, Frames.get?_length] at hr
  have hnot : ∀ {g r}, n.state.frames.get? g = some r → g ∉ n.restored → g ∉ restored := by
    intro g r hr hg hg'
    rcases hrestored g hg' with hg' | ⟨rfl, -⟩
    · exact hg hg'
    · exact hnext hr rfl
  have hback : ∀ {g r}, s'.frames.get? g = some r →
      r = c ∧ g = n.state.nextFrame ∨ n.state.frames.get? g = some r := by
    intro g r hr
    rw [hf] at hr
    rcases Frames.get?_concat hr with ⟨hg, rfl⟩ | hr
    · obtain ⟨i⟩ := g
      exact .inl ⟨rfl, congrArg FrameId.mk hg⟩
    · exact .inr hr
  refine ⟨hwf, ?_, ?_, fun g hg => ?_, fun g hg => ?_, fun g r site hr hs => ?_⟩
  · rw [hf]
    exact h.unfrozen.concat hunfrozen
  · intro g r site c' hr hw hs hc'
    rcases hback hr with ⟨rfl, rfl⟩ | hr
    · obtain ⟨c'', hc'', hw''⟩ := hcaller site hs
      obtain rfl := Option.some.inj (hc'.symm.trans (hget hc''))
      exact hw''
    · obtain ⟨-, -, c'', hc'', -⟩ := h.wellFormed.linked.callee hr hs
      obtain rfl := Option.some.inj (hc'.symm.trans (hget hc''))
      exact h.openCallers hr hw hs hc''
  · rcases hanalysed g hg with hg | ⟨rfl, he, hg, heq⟩
    · obtain ⟨hg, r, hr, he⟩ := h.analysed g hg
      exact ⟨hnot hr hg, r, hget hr, he⟩
    · exact ⟨heq ▸ hg, c, hlast, he⟩
  · rcases hrestored g hg with hg | ⟨rfl, hw⟩
    · obtain ⟨r, hr, hw⟩ := h.restored g hg
      exact ⟨r, hget hr, hw⟩
    · exact ⟨c, hlast, hw⟩
  · rcases hback hr with ⟨rfl, -⟩ | hr
    · obtain ⟨c', hc', hw⟩ := hcaller site hs
      exact hnot hc' (h.notMem_restored hc' hw)
    · obtain ⟨-, -, c', hc', -⟩ := h.wellFormed.linked.callee hr hs
      exact hnot hc' (h.callers hr hs)

end Tracked

theorem take_answer {answer : Answer} (h : answer.opened? = none) (n : Nesting) (s : Analysis) :
    n.take (.ok answer s) = { n with state := s } := by
  cases answer with
  | entered e =>
    cases e with
    | cycle => rfl
    | analyze | cached => cases h
  | _ => rfl

theorem Tracked.after (h : Tracked n) {op : Operation} (hop : n.Admits op) :
    Tracked (n.after op) := by
  have hwf := h.wellFormed.after op
  rw [Analysis.after_eq] at hwf
  have hstep := Analysis.step_cases h.wellFormed.linked op
  unfold Nesting.after
  generalize n.state.step op = res at hstep hwf
  cases hstep with
  | failed => exact ⟨hwf, h.unfrozen, h.openCallers, h.analysed, h.restored, h.callers⟩
  | answered _ answer _ hans =>
    rw [take_answer hans]
    exact ⟨hwf, h.unfrozen, h.openCallers, h.analysed, h.restored, h.callers⟩
  | noted _ answer f r _ _ _ hans hr _ hw _ =>
    rw [take_answer hans]
    have hunfrozen := h.unfrozen hr
    exact h.update hwf rfl hr (Frame.sameCall_note _) hunfrozen id (.inl hw)
  | entry =>
    exact h.concat hwf rfl (by simp [Frame.entry]) (by simp [Frame.entry]) (fun g => .inl)
      fun g => .inl
  | analyze signature site c _ hc _ _ _ =>
    obtain ⟨c', hc', hw⟩ := h.wellFormed.writable_of_last hop
    obtain rfl := Option.some.inj (hc.symm.trans hc')
    refine h.concat hwf rfl (by simp [Frame.callee]) ?_ (fun g => .inl) fun g hg => ?_
    · intro site' hs
      cases hs
      exact ⟨c, hc, hw⟩
    · rcases List.mem_append.1 hg with hg | hg
      · exact .inl hg
      · obtain rfl := List.mem_singleton.1 hg
        refine .inr ⟨rfl, rfl, fun hmem => ?_, rfl⟩
        obtain ⟨r, hr, -⟩ := h.restored _ hmem
        simp [Analysis.nextFrame, Frames.get?_length] at hr
  | restored signature site c call _ hc _ _ _ =>
    obtain ⟨c', hc', hw⟩ := h.wellFormed.writable_of_last hop
    obtain rfl := Option.some.inj (hc.symm.trans hc')
    refine h.concat hwf rfl (by simp [Frame.restored]) ?_ (fun g hg => ?_) fun g => .inl
    · intro site' hs
      cases hs
      exact ⟨c, hc, hw⟩
    · rcases List.mem_append.1 hg with hg | hg
      · exact .inl hg
      · exact .inr ⟨List.mem_singleton.1 hg, by simp [Frame.restored]⟩
  | aborted f r _ _ _ _ hr _ _ =>
    exact h.update hwf rfl hr (Frame.sameCall_failed _ _ _) (by simp [Frame.failed, Frame.closed])
      (by simp [Frame.failed, Frame.closed])
      (.inr fun g r' site hg hw hs => h.wellFormed.caller_ne_last hop hg hw hs)
  | finished f r result body _ hr _ _ =>
    exact h.update hwf rfl hr (Frame.sameCall_finished _ _ _ _) (by simp) (by simp)
      (.inr fun g r' site hg hw hs => h.wellFormed.caller_ne_last hop hg hw hs)
  | published f r result _ hr _ _ =>
    have hphase := r.phase_published n.state.strictness result
    have hunfrozen := h.unfrozen hr
    refine h.update hwf rfl hr (Frame.sameCall_published _ _) (hphase ▸ hunfrozen)
      (hphase ▸ id) ?_
    by_cases hw : r.ledger.phase = .writable
    · exact .inl (hphase.trans hw)
    · refine .inr fun g r' site hg hw' hs hcaller => hw ?_
      exact h.openCallers hg hw' hs (hcaller ▸ hr)
  | frozen => exact hop.elim

end Nesting

end FrameAudit
