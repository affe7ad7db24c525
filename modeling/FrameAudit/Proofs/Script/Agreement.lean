import FrameAudit.Proofs.Analysis.WellFormed
import FrameAudit.Proofs.Script.Expansion

/-! # Caches and frames that agree with the call tree

While a script is carried out, what the cache holds of a signature is what expanding it gives
(`Script.Agrees`). A behaviour runs in the newest frame; all frames opened after it are beneath it,
and together they hold the reports of the calls made so far (`Script.Midway`). When the behaviour is
through, they hold the expansion of its signature (`Script.Grown`), so its call may be kept. -/

namespace FrameAudit

/-- The reports of all frames. -/
def Frames.reports (frames : Frames) : List Report := frames.flatMap fun r => r.ledger.reports

namespace Frames

variable {base frames old : Frames} {f g : FrameId} {r r' c : Frame} {ρ : Report}

theorem mem_reports : ρ ∈ frames.reports ↔ ∃ r ∈ frames, ρ ∈ r.ledger.reports := List.mem_flatMap

theorem reports_append (frames new : Frames) :
    reports (frames ++ new) = reports frames ++ reports new := List.flatMap_append

theorem get?_append_length (base : Frames) (c : Frame) (below : Frames) :
    get? (base ++ c :: below) ⟨base.length⟩ = some c := by
  simp [get?]

theorem update_append_length (base : Frames) (c : Frame) (below : Frames)
    (change : Frame → Frame) :
    update (base ++ c :: below) ⟨base.length⟩ change = base ++ change c :: below := by
  induction base with
  | nil => rfl
  | cons b base ih => exact congrArg (b :: ·) ih

/-- Every frame that was opened after `f` is beneath it. -/
def AllBeneath (frames : Frames) (f : FrameId) : Prop :=
  ∀ ⦃g r⦄, frames.get? g = some r → f.index < g.index → frames.Beneath g f

theorem allBeneath_concat (frames : Frames) (c : Frame) :
    AllBeneath (frames ++ [c]) ⟨frames.length⟩ := by
  intro g r hg hlt
  have hlen := index_lt_length hg
  rw [List.length_append, List.length_singleton] at hlen
  exact absurd hlt (Nat.not_lt.2 (Nat.lt_succ_iff.1 hlen))

theorem AllBeneath.update {change : Frame → Frame} (h : AllBeneath frames f) (hl : Linked frames)
    (hr : frames.get? f = some r) (hsame : ∀ r : Frame, r.SameCall (change r)) :
    AllBeneath (frames.update f change) f := by
  intro g r' hg hlt
  rcases get?_update_cases hr hg with ⟨rfl, -⟩ | ⟨-, hg⟩
  · exact absurd hlt (Nat.lt_irrefl _)
  · exact ((extends_update frames f hsame).beneath_iff hl (hl.update f hsame) hg).2 (h hg hlt)

end Frames

/-- The outcome lists the reports of all frames. -/
theorem Analysis.reports_conclude (s : Analysis) :
    s.conclude.1.reports = Frames.reports s.frames := by
  simp only [conclude, outcome, freeze, Outcome.reports, Frames.reports, List.flatMap_map]
  rfl

/-- Where a behaviour runs. -/
structure Place where
  /-- The frames that were opened before. -/
  base : Frames
  /-- The frames that are being analysed, apart from the one of the behaviour. -/
  stack : List FrameId
  /-- The frame of the behaviour when it was opened. -/
  frame : Frame
  callers : CallPath

namespace Place

/-- The number of the frame of the behaviour. -/
def id (p : Place) : FrameId := ⟨p.base.length⟩

end Place

namespace Script

variable (script : Script) (config : Config)

/-- What is kept of a call is what expanding its signature gives. -/
structure Faithful (signature : Signature) (call : CachedCall) : Prop where
  result : call.result = (script.behaviour signature).result
  reports : ∀ ρ, ρ ∈ call.reports ↔
    script.Expansion config.policy.strictness false signature ρ

def Agrees (cache : Cache) : Prop :=
  ∀ ⦃signature call⦄, cache.get? ⟨config.partition, signature⟩ = some call →
    script.Faithful config signature call

structure Driven (a : Analysis) : Prop where
  wellFormed : a.WellFormed
  config_eq : a.config = config
  agrees : script.Agrees config a.cache

/-- The behaviour of the place has recorded some reports and made some calls; `opened` are their
frames. -/
structure Midway (p : Place) (reports : List Report) (called : List (Position × Signature))
    (opened : List FrameId) (a : Analysis) : Prop extends Driven script config a where
  shape : ∃ below, a.frames = p.base ++ p.frame.holding p.callers reports :: below ∧
    ∀ ρ, ρ ∈ Frames.reports below ↔ ∃ site ∈ called, ∃ inner,
      script.Expansion config.policy.strictness false site.2 inner ∧
        ρ = inner.rebase (p.callers ++ [⟨p.frame.signature, site.1⟩])
  stack : a.stack = p.stack ++ [p.id]
  callers : a.frames.callerPath p.id = p.callers
  onStack : ∀ ⦃g⦄, a.frames.Beneath p.id g → g ∈ p.stack
  calling : ∀ g ∈ p.stack, ∀ c, p.base.get? g = some c →
    Relation.TransGen script.table.Calls c.signature p.frame.signature
  allBeneath : a.frames.AllBeneath p.id
  opened : opened.map (fun g => (a.frames.get? g).map Frame.result) =
    (called.map fun site => (script.behaviour site.2).result).map some

/-- The behaviour of the place is through, and `c` is its frame now. -/
structure Grown (p : Place) (frames : Frames) (c : Frame) : Prop where
  shape : ∃ below, frames = p.base ++ c :: below ∧
    ∀ ρ, ρ ∈ Frames.reports (c :: below) ↔ ∃ inner,
      script.Expansion config.policy.strictness p.frame.isEntry p.frame.signature inner ∧
        ρ = inner.rebase p.callers
  sameCall : p.frame.SameCall c
  result : c.result = (script.behaviour p.frame.signature).result
  callers : frames.callerPath p.id = p.callers
  allBeneath : frames.AllBeneath p.id

structure Done (p : Place) (a : Analysis) : Prop extends Driven script config a where
  stack : a.stack = p.stack
  grown : ∃ c, script.Grown config p a.frames c

variable {script config} {p : Place} {reports reports' : List Report}
  {called : List (Position × Signature)} {opened : List FrameId} {a a' : Analysis}
  {change : Frame → Frame} {c : Frame}

/-- No report is lost when a frame is filled. -/
theorem Faithful.mem_restored {signature : Signature} {call : CachedCall}
    (h : script.Faithful config signature call) {r : Frame} (hr : r.ledger.reports = [])
    (callers : CallPath) {ρ : Report} :
    ρ ∈ (r.restored callers call).ledger.reports ↔ ∃ inner,
      script.Expansion config.policy.strictness false signature inner ∧
        ρ = inner.rebase callers := by
  have hmem : ∀ {x}, x ∈ call.reports.map (·.rebase callers) ↔ ∃ inner,
      script.Expansion config.policy.strictness false signature inner ∧
        x = inner.rebase callers := by
    intro x
    simp only [List.mem_map, h.reports, eq_comm]
  change ρ ∈ (call.reports.map (·.rebase callers)).foldl Ledger.noted r.ledger.reports ↔ _
  rw [hr, Ledger.mem_foldl_noted, hmem]
  · simp
  · intro a ha b hb hab
    obtain ⟨x, hx, rfl⟩ := hmem.1 ha
    obtain ⟨y, hy, rfl⟩ := hmem.1 hb
    rw [hx.eq_of_duplicates hy ((Report.rebase_duplicates_iff x y callers).1 hab)]

namespace Midway

theorem get? (h : script.Midway config p reports called opened a) :
    a.frames.get? p.id = some (p.frame.holding p.callers reports) := by
  obtain ⟨below, hframes, -⟩ := h.shape
  rw [hframes]
  exact Frames.get?_append_length ..

theorem writable (h : script.Midway config p reports called opened a) :
    p.frame.ledger.phase = .writable := by
  have hmem : p.id ∈ a.stack := h.stack ▸ List.mem_append_right _ List.mem_cons_self
  obtain ⟨r, hr, hw⟩ := (h.wellFormed.mem_stack p.id).1 hmem
  obtain rfl := Option.some.inj (h.get?.symm.trans hr)
  exact hw

theorem live (h : script.Midway config p reports called opened a) : p.frame.aborted = false := by
  have hlive := h.wellFormed.live h.get? h.writable
  exact hlive

/-- The frame of the behaviour records something. -/
theorem record (h : script.Midway config p reports called opened a)
    (hdriven : script.Driven config a') (hframes : a'.frames = a.frames.update p.id change)
    (hstack : a'.stack = a.stack) (hsame : ∀ r : Frame, r.SameCall (change r))
    (hchange : change (p.frame.holding p.callers reports) = p.frame.holding p.callers reports') :
    script.Midway config p reports' called opened a' := by
  have hl := h.wellFormed.linked
  have hext := Frames.extends_update a.frames p.id hsame
  refine ⟨hdriven, ?_, hstack.trans h.stack, ?_, ?_, h.calling, ?_, ?_⟩
  · obtain ⟨below, hold, hreports⟩ := h.shape
    refine ⟨below, ?_, hreports⟩
    rw [hframes, hold, Place.id, Frames.update_append_length, hchange]
  · rw [hframes, Frames.callerPath_update _ _ _ hsame, h.callers]
  · intro g hb
    rw [hframes] at hb
    exact h.onStack ((hext.beneath_iff hl (hl.update p.id hsame) h.get?).1 hb)
  · rw [hframes]
    exact h.allBeneath.update hl h.get? hsame
  · rw [← h.opened]
    refine List.map_congr_left fun g _ => ?_
    rw [hframes, Frames.get?_update]
    split
    next hg =>
      rw [hg, h.get?, Option.map_some, Option.map_some, hchange]
      rfl
    next => rfl

/-- The frames of the calls made so far are there. -/
theorem get?_opened (h : script.Midway config p reports called opened a) {g : FrameId}
    (hg : g ∈ opened) : ∃ r, a.frames.get? g = some r := by
  have hmem := List.mem_map_of_mem (f := fun g => (a.frames.get? g).map Frame.result) hg
  rw [h.opened] at hmem
  obtain ⟨result, -, hresult⟩ := List.mem_map.1 hmem
  obtain ⟨r, hr, -⟩ := Option.map_eq_some_iff.1 hresult.symm
  exact ⟨r, hr⟩

/-- A call was made and is through: `c` is its frame, and `new` are the frames beneath it. -/
theorem call (h : script.Midway config p reports called opened a)
    (hdriven : script.Driven config a') {new : Frames} (hframes : a'.frames = a.frames ++ c :: new)
    (hstack : a'.stack = a.stack) {position : Position} {callee : Signature}
    (hsite : c.site = some ⟨p.id, position⟩)
    (hresult : c.result = (script.behaviour callee).result)
    (hreports : ∀ ρ, ρ ∈ Frames.reports (c :: new) ↔ ∃ inner,
      script.Expansion config.policy.strictness false callee inner ∧
        ρ = inner.rebase (p.callers ++ [⟨p.frame.signature, position⟩]))
    (hnew : a'.frames.AllBeneath ⟨a.frames.length⟩) :
    script.Midway config p reports (called ++ [(position, callee)])
      (opened ++ [⟨a.frames.length⟩]) a' := by
  have hl := h.wellFormed.linked
  have hl' := hdriven.wellFormed.linked
  have hext : a.frames.Extends a'.frames := hframes ▸ Frames.extends_append ..
  have hc : a'.frames.get? ⟨a.frames.length⟩ = some c := hframes ▸ Frames.get?_append_length ..
  have hroot : a'.frames.Beneath ⟨a.frames.length⟩ p.id := .direct hc hsite
  refine ⟨hdriven, ?_, hstack.trans h.stack, (hext.callerPath_eq hl hl' h.get?).trans h.callers,
    fun g hb => h.onStack ((hext.beneath_iff hl hl' h.get?).1 hb), h.calling, ?_, ?_⟩
  · obtain ⟨below, hold, hbelow⟩ := h.shape
    refine ⟨below ++ c :: new, by rw [hframes, hold, List.append_assoc, List.cons_append], ?_⟩
    intro ρ
    simp only [Frames.reports_append, List.mem_append, hbelow, hreports, List.mem_singleton,
      or_and_right, exists_or, exists_eq_left]
  · intro g r hg hlt
    rcases Nat.lt_trichotomy g.index a.frames.length with hi | hi | hi
    · rw [hframes, Frames.get?, List.getElem?_append_left hi] at hg
      exact (hext.beneath_iff hl hl' hg).2 (h.allBeneath hg hlt)
    · obtain ⟨i⟩ := g
      cases hi
      exact hroot
    · exact (hnew hg hi).trans hroot
  · rw [List.map_append, List.map_append, List.map_append, ← h.opened]
    refine congrArg₂ _ (List.map_congr_left fun g hg => ?_) ?_
    · obtain ⟨r, hr⟩ := h.get?_opened hg
      rw [hr, hframes, Frames.get?_append_of_some hr]
    · simp [hc, hresult]

/-- The behaviour is through. -/
theorem grown
    (h : script.Midway config p reports (script.behaviour p.frame.signature).calls opened a)
    (hsame : ∀ r : Frame, r.SameCall (change r))
    (hchange : change (p.frame.holding p.callers reports) = c)
    (hreports : c.ledger.reports = (script.ownReports config.policy.strictness p.frame.signature
      p.frame.isEntry).map (·.rebase p.callers))
    (hresult : c.result = (script.behaviour p.frame.signature).result) :
    script.Grown config p (a.frames.update p.id change) c := by
  have hl := h.wellFormed.linked
  refine ⟨?_, ?_, hresult, ?_, h.allBeneath.update hl h.get? hsame⟩
  · obtain ⟨below, hold, hbelow⟩ := h.shape
    refine ⟨below, by rw [hold, Place.id, Frames.update_append_length, hchange], fun ρ => ?_⟩
    change ρ ∈ c.ledger.reports ++ Frames.reports below ↔ _
    rw [List.mem_append, hbelow, hreports, List.mem_map]
    constructor
    · rintro (⟨own, hown, rfl⟩ | ⟨site, hsite, inner, hinner, rfl⟩)
      · exact ⟨own, expansion_iff.2 (.inl hown), rfl⟩
      · refine ⟨inner.rebase [⟨p.frame.signature, site.1⟩],
          expansion_iff.2 (.inr ⟨site, hsite, inner, hinner, rfl⟩), ?_⟩
        rw [Report.rebase_rebase]
    · rintro ⟨outer, houter, rfl⟩
      rcases expansion_iff.1 houter with hown | ⟨site, hsite, inner, hinner, rfl⟩
      · exact .inl ⟨outer, hown, rfl⟩
      · refine .inr ⟨site, hsite, inner, hinner, ?_⟩
        rw [Report.rebase_rebase]
  · exact hchange ▸ (show p.frame.SameCall (p.frame.holding p.callers reports) from
      ⟨rfl, rfl, rfl, rfl⟩).trans (hsame _)
  · rw [Frames.callerPath_update _ _ _ hsame, h.callers]

end Midway

theorem Grown.get? {frames : Frames} (h : script.Grown config p frames c) :
    frames.get? p.id = some c := by
  obtain ⟨below, rfl, -⟩ := h.shape
  exact Frames.get?_append_length ..

/-- The frames hold the expansion, so keeping the call is right. -/
theorem Grown.faithful {frames : Frames} (h : script.Grown config p frames c)
    (hl : frames.Linked) (he : p.frame.isEntry = false) :
    script.Faithful config p.frame.signature (frames.callOf p.id c) := by
  refine ⟨h.result, fun ρ => ?_⟩
  have hdepth : p.callers.length = c.depth := by
    rw [← h.callers]
    exact hl.length_callerPath h.get?
  change ρ ∈ frames.subtreeReports p.id c.depth ↔ _
  rw [hl.mem_subtreeReports]
  obtain ⟨below, hframes, hreports⟩ := h.shape
  constructor
  · rintro ⟨g, r, hg, hsub, own, hown, rfl⟩
    have hle : p.base.length ≤ g.index := by
      rcases hsub with rfl | hb
      · exact Nat.le_refl _
      · exact Nat.le_of_lt (hb.lt hl hg).1
    have hmem : r ∈ c :: below := by
      rw [hframes, Frames.get?, List.getElem?_append_right hle] at hg
      exact List.mem_of_getElem? hg
    obtain ⟨inner, hinner, rfl⟩ := (hreports own).1 (Frames.mem_reports.2 ⟨r, hmem, hown⟩)
    rw [← hdepth, Report.below_rebase]
    exact he ▸ hinner
  · intro hρ
    obtain ⟨r, hr, hown⟩ := Frames.mem_reports.1
      ((hreports (ρ.rebase p.callers)).2 ⟨ρ, he.symm ▸ hρ, rfl⟩)
    obtain ⟨i, hi⟩ := List.mem_iff_getElem?.1 hr
    have hget : frames.get? ⟨p.base.length + i⟩ = some r := by
      rw [hframes, Frames.get?, List.getElem?_append_right (Nat.le_add_right ..),
        Nat.add_sub_cancel_left]
      exact hi
    refine ⟨⟨p.base.length + i⟩, r, hget, ?_, ρ.rebase p.callers, hown, ?_⟩
    · rcases Nat.eq_zero_or_pos i with rfl | hpos
      · exact .inl rfl
      · exact .inr (h.allBeneath hget (Nat.lt_add_of_pos_right hpos))
    · rw [← hdepth, Report.below_rebase]

/-! ## Keeping calls -/

theorem agrees_insert {cache : Cache} {signature : Signature} {call : CachedCall}
    (h : script.Agrees config cache) (hcall : script.Faithful config signature call) :
    script.Agrees config (cache.insert ⟨config.partition, signature⟩ call) := by
  intro signature' call' hget
  rw [Cache.get?_insert] at hget
  split at hget
  next heq =>
    cases heq
    exact Option.some.inj hget ▸ hcall
  next => exact h hget

/-- The call of a behaviour that is through may be kept. -/
theorem Grown.agrees_keepIn {frames : Frames} {cache : Cache} (h : script.Grown config p frames c)
    (hl : frames.Linked) (hcache : script.Agrees config cache) :
    script.Agrees config (frames.keepIn config.partition cache p.id) := by
  by_cases hk : frames.Keeps p.id c
  · rw [Frames.keepIn_of_keeps hk, h.sameCall.signature]
    exact agrees_insert hcache (h.faithful hl (h.sameCall.isEntry.symm.trans hk.isEntry))
  · rw [Frames.keepIn_of_not_keeps fun r hr => ?_]
    · exact hcache
    · obtain rfl := Option.some.inj (h.get?.symm.trans hr.get?)
      exact hk hr

end Script

end FrameAudit
