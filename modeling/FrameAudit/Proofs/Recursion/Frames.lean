import FrameAudit.Proofs.Recursion.Walk
import FrameAudit.Proofs.Script.Agreement

/-! # Frames and caches of a walk

While the calls of a frame are followed, the frames opened after it are beneath it, and their
reports have the tips that were found (`BehaviourTable.Shape`). So the call of the frame is kept
with these tips and its own when the behaviour is through (`BehaviourTable.Ended.keptIn_keepIn`). -/

namespace FrameAudit.BehaviourTable

open Frames (get?_append_length get?_append_of_some update_append_length)

/-- The tips of the calls that a cache keeps for a configuration. -/
def keptIn (config : Config) (cache : Cache) : Kept := fun signature =>
  (cache.get? ⟨config.partition, signature⟩).map fun call => tips call.reports

/-- The calls that a cache keeps have the results of their behaviours, and every report of them is
about some call. -/
def Filled (table : BehaviourTable) (config : Config) (cache : Cache) : Prop :=
  ∀ ⦃signature call⦄, cache.get? ⟨config.partition, signature⟩ = some call →
    call.result = (table.get signature).result ∧ ∀ ρ ∈ call.reports, ρ.path ≠ []

/-- The frames of a place: those before it, its own, which is `c` now, and those beneath it, where
the given tips were found. -/
structure Shape (p : Place) (frames : Frames) (c : Frame) (found : Set Tip) : Prop where
  below : ∃ below, frames = p.base ++ c :: below ∧ tips (Frames.reports below) = found ∧
    ∀ ρ ∈ Frames.reports below, p.callers.length < ρ.path.length
  sameCall : p.frame.SameCall c
  callers : frames.callerPath p.id = p.callers
  allBeneath : frames.AllBeneath p.id

variable {table : BehaviourTable} {config : Config} {p : Place} {frames : Frames} {c : Frame}
  {found : Set Tip} {cache : Cache} {signature : Signature}

namespace Shape

theorem get? (h : Shape p frames c found) : frames.get? p.id = some c := by
  obtain ⟨below, rfl, -⟩ := h.below
  exact get?_append_length ..

/-- The frame of the place changes. -/
theorem update {change : Frame → Frame} (h : Shape p frames c found) (hl : frames.Linked)
    (hsame : ∀ r : Frame, r.SameCall (change r)) :
    Shape p (frames.update p.id change) (change c) found where
  below := by
    obtain ⟨below, rfl, hbelow⟩ := h.below
    exact ⟨below, update_append_length .., hbelow⟩
  sameCall := h.sameCall.trans (hsame c)
  callers := by rw [Frames.callerPath_update _ _ _ hsame, h.callers]
  allBeneath := h.allBeneath.update hl h.get? hsame

/-- A call was made and is through: `d` is its frame, and `new` are the frames beneath it. -/
theorem call {frames' new : Frames} {d : Frame} {position : Position} {more : Set Tip}
    (h : Shape p frames c found) (hl : frames.Linked) (hl' : frames'.Linked)
    (hframes : frames' = frames ++ d :: new) (hsite : d.site = some ⟨p.id, position⟩)
    (htips : tips (Frames.reports (d :: new)) = more)
    (hlength : ∀ ρ ∈ Frames.reports (d :: new), p.callers.length < ρ.path.length)
    (hnew : frames'.AllBeneath ⟨frames.length⟩) : Shape p frames' c (found ∪ more) := by
  have hext : frames.Extends frames' := hframes ▸ Frames.extends_append ..
  have hd : frames'.get? ⟨frames.length⟩ = some d := hframes ▸ get?_append_length ..
  have hroot : frames'.Beneath ⟨frames.length⟩ p.id := .direct hd hsite
  refine ⟨?_, h.sameCall, (hext.callerPath_eq hl hl' h.get?).trans h.callers, ?_⟩
  · obtain ⟨below, hold, hfound, hbelow⟩ := h.below
    refine ⟨below ++ d :: new, by rw [hframes, hold, List.append_assoc, List.cons_append], ?_, ?_⟩
    · rw [Frames.reports_append, tips_append, hfound, htips]
    · intro ρ hρ
      rw [Frames.reports_append] at hρ
      exact (List.mem_append.1 hρ).elim (hbelow ρ) (hlength ρ)
  · intro g r hg hlt
    rcases Nat.lt_trichotomy g.index frames.length with hi | hi | hi
    · rw [hframes, Frames.get?, List.getElem?_append_left hi] at hg
      exact (hext.beneath_iff hl hl' hg).2 (h.allBeneath hg hlt)
    · obtain ⟨i⟩ := g
      cases hi
      exact hroot
    · exact (hnew hg hi).trans hroot

/-- The reports of the frame of the place and of all frames beneath it. -/
theorem mem_subtreeReports (h : Shape p frames c found) (hl : frames.Linked) {ρ : Report} :
    ρ ∈ frames.subtreeReports p.id c.depth ↔
      ∃ below, frames = p.base ++ c :: below ∧
        ∃ own ∈ Frames.reports (c :: below), ρ = own.below p.callers.length := by
  have hdepth : p.callers.length = c.depth := by
    rw [← h.callers]
    exact hl.length_callerPath h.get?
  rw [hl.mem_subtreeReports, ← hdepth]
  constructor
  · rintro ⟨g, r, hg, hsub, own, hown, rfl⟩
    obtain ⟨below, hframes, -⟩ := h.below
    have hle : p.base.length ≤ g.index := by
      rcases hsub with rfl | hb
      · exact Nat.le_refl _
      · exact Nat.le_of_lt (hb.lt hl hg).1
    rw [hframes, Frames.get?, List.getElem?_append_right hle] at hg
    exact ⟨below, hframes, own, Frames.mem_reports.2 ⟨r, List.mem_of_getElem? hg, hown⟩, rfl⟩
  · rintro ⟨below, hframes, own, hown, rfl⟩
    obtain ⟨r, hr, hown⟩ := Frames.mem_reports.1 hown
    obtain ⟨i, hi⟩ := List.mem_iff_getElem?.1 hr
    have hget : frames.get? ⟨p.base.length + i⟩ = some r := by
      rw [hframes, Frames.get?, List.getElem?_append_right (Nat.le_add_right ..),
        Nat.add_sub_cancel_left]
      exact hi
    refine ⟨⟨p.base.length + i⟩, r, hget, ?_, own, hown, rfl⟩
    rcases Nat.eq_zero_or_pos i with rfl | hpos
    · exact .inl rfl
    · exact .inr (h.allBeneath hget (Nat.lt_add_of_pos_right hpos))

theorem tips_callOf (h : Shape p frames c found) (hl : frames.Linked)
    (hown : ∀ ρ ∈ c.ledger.reports, p.callers.length < ρ.path.length) :
    tips (frames.callOf p.id c).reports = tips c.ledger.reports ∪ found ∧
      ∀ ρ ∈ (frames.callOf p.id c).reports, ρ.path ≠ [] := by
  obtain ⟨below, hframes, hfound, hbelow⟩ := h.below
  have hlength : ∀ ρ ∈ Frames.reports (c :: below), p.callers.length < ρ.path.length :=
    fun ρ hρ => (List.mem_append.1 hρ).elim (hown ρ) (hbelow ρ)
  have hmem : ∀ ρ, ρ ∈ (frames.callOf p.id c).reports ↔
      ∃ own ∈ Frames.reports (c :: below), ρ = own.below p.callers.length := by
    refine fun ρ => (h.mem_subtreeReports hl).trans ⟨?_, fun hρ => ⟨below, hframes, hρ⟩⟩
    rintro ⟨below', hframes', hρ⟩
    rw [hframes] at hframes'
    rwa [(List.cons.inj (List.append_cancel_left hframes')).2]
  constructor
  · rw [← hfound, ← tips_append]
    ext t
    simp only [mem_tips_iff, hmem]
    constructor
    · rintro ⟨-, ⟨own, hρ, rfl⟩, rfl⟩
      exact ⟨own, hρ, (Report.tip_below (hlength own hρ)).symm⟩
    · rintro ⟨own, hρ, rfl⟩
      exact ⟨_, ⟨own, hρ, rfl⟩, Report.tip_below (hlength own hρ)⟩
  · intro ρ hρ
    obtain ⟨own, hmem, rfl⟩ := (hmem ρ).1 hρ
    exact mt List.drop_eq_nil_iff.1 (Nat.not_le.2 (hlength own hmem))

end Shape

/-! ## The end of a behaviour -/

/-- What is kept when the behaviour of a frame is through. Entries are not kept. -/
noncomputable def keepFrame (table : BehaviourTable) (stack : List Signature) (r : Frame)
    (inner : Set Tip) (kept : Kept) : Kept :=
  if r.isEntry then kept else
    table.keep r.signature (table.own (r.signature :: stack) r.signature ∪ inner) kept

/-- The behaviour of the place is through, and `c` is its frame now. -/
structure Ended (table : BehaviourTable) (stack : List Signature) (p : Place) (c : Frame) :
    Prop where
  reports : c.ledger.reports =
    ((table.get p.frame.signature).reports (table.resultUnder (p.frame.signature :: stack))
      p.frame.view).map (·.rebase p.callers)
  result : c.result = (table.get p.frame.signature).result

namespace Ended

variable {stack : List Signature}

theorem tips_eq (h : table.Ended stack p c) :
    tips c.ledger.reports = table.own (p.frame.signature :: stack) p.frame.signature := by
  rw [h.reports, tips_map_rebase, Frame.view, Behaviour.reports_isEntry, own]
  intro ρ hρ
  obtain ⟨position, finding, rfl⟩ := Behaviour.owns_of_mem_reports hρ
  exact List.cons_ne_nil _ _

theorem length_lt (h : table.Ended stack p c) :
    ∀ ρ ∈ c.ledger.reports, p.callers.length < ρ.path.length := by
  intro ρ hρ
  rw [h.reports] at hρ
  obtain ⟨own, hown, rfl⟩ := List.mem_map.1 hρ
  obtain ⟨position, finding, rfl⟩ := Behaviour.owns_of_mem_reports hown
  simp [Report.rebase, CallPath.rebase, FrameView.report]

theorem keptIn_keepIn (h : table.Ended stack p c) (hshape : Shape p frames c found)
    (hl : frames.Linked) (ha : c.aborted = false) (hf : ¬table.Fails p.frame.signature) :
    keptIn config (frames.keepIn config.partition cache p.id) =
      table.keepFrame stack p.frame found (keptIn config cache) := by
  have hsame := hshape.sameCall
  unfold keepFrame
  split
  next he =>
    rw [Frames.keepIn_of_not_keeps fun r hr => ?_]
    obtain rfl := Option.some.inj (hshape.get?.symm.trans hr.get?)
    cases (hsame.isEntry.trans he).symm.trans hr.isEntry
  next he =>
    have hkeeps : frames.Keeps p.id c :=
      ⟨hshape.get?, hsame.isEntry.trans (Bool.eq_false_iff.2 he), ha⟩
    funext s
    rw [keptIn, Frames.keepIn_of_keeps hkeeps, Cache.get?_insert, hsame.signature]
    by_cases hs : s = p.frame.signature
    · rw [if_pos (by rw [hs]), hs, keep_self hf, Option.map_some,
        (hshape.tips_callOf hl h.length_lt).1, h.tips_eq]
    · rw [if_neg (fun heq => hs (congrArg Cache.Slot.signature heq)), keep_of_ne hs]
      rfl

theorem filled_keepIn (h : table.Ended stack p c) (hshape : Shape p frames c found)
    (hl : frames.Linked) (hfilled : table.Filled config cache) :
    table.Filled config (frames.keepIn config.partition cache p.id) := by
  intro s call hcall
  rcases Frames.get?_keepIn_cases hcall with hcall | ⟨r, hr, hslot, rfl⟩
  · exact hfilled hcall
  · obtain rfl := Option.some.inj (hshape.get?.symm.trans hr.get?)
    obtain rfl : s = c.signature := congrArg Cache.Slot.signature hslot
    refine ⟨?_, (hshape.tips_callOf hl h.length_lt).2⟩
    rw [hshape.sameCall.signature]
    exact h.result

end Ended

end FrameAudit.BehaviourTable
