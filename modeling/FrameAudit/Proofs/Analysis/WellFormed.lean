import FrameAudit.Proofs.Analysis.Step
import Mathlib.Data.List.Nodup

/-! # Well-formed analyses

The frames of an analysis are linked, and its stack holds exactly the frames that take reports, each
once and in the order of their opening. Every operation keeps that. -/

namespace FrameAudit.Analysis

open Frames (get?_update_self get?_update_cases)

variable {s s' : Analysis} {f g : FrameId} {r c : Frame} {change : Frame → Frame}

structure WellFormed (s : Analysis) : Prop where
  linked : s.frames.Linked
  ascending : s.stack.Pairwise (·.index < ·.index)
  mem_stack : ∀ f, f ∈ s.stack ↔ ∃ r, s.frames.get? f = some r ∧ r.ledger.phase = .writable
  live : ∀ {f r}, s.frames.get? f = some r → r.ledger.phase = .writable → r.aborted = false

namespace WellFormed

theorem nodup (h : WellFormed s) : s.stack.Nodup :=
  h.ascending.imp fun hlt heq => absurd (heq ▸ hlt) (Nat.lt_irrefl _)

theorem mem_erased (h : WellFormed s) :
    g ∈ (s.stack.reverse.erase f).reverse ↔ g ≠ f ∧ g ∈ s.stack := by
  rw [List.mem_reverse, List.Nodup.mem_erase_iff (List.nodup_reverse.2 h.nodup), List.mem_reverse]

theorem ascending_erased (h : WellFormed s) :
    ((s.stack.reverse.erase f).reverse).Pairwise (·.index < ·.index) := by
  rw [List.pairwise_reverse]
  exact (List.pairwise_reverse.2 h.ascending).sublist List.erase_sublist

/-- A frame is changed and takes reports as before. -/
theorem update (h : WellFormed s) (hr : s.frames.get? f = some r)
    (hsame : ∀ r : Frame, r.SameCall (change r))
    (hphase : (change r).ledger.phase = r.ledger.phase) (ha : (change r).aborted = r.aborted)
    (hf : s'.frames = s.frames.update f change) (hs : s'.stack = s.stack) : WellFormed s' := by
  refine ⟨hf ▸ h.linked.update f hsame, hs ▸ h.ascending, fun g => ?_, fun {g r'} hg hw => ?_⟩
  · rw [hs, h.mem_stack, hf]
    constructor
    · rintro ⟨r', hr', hw⟩
      by_cases hgf : g = f
      · subst hgf
        obtain rfl := Option.some.inj (hr.symm.trans hr')
        exact ⟨_, get?_update_self hr _, hphase.trans hw⟩
      · exact ⟨r', (Frames.get?_update_of_ne hgf _).trans hr', hw⟩
    · rintro ⟨r', hr', hw⟩
      rcases get?_update_cases hr hr' with ⟨rfl, rfl⟩ | ⟨-, hr'⟩
      · exact ⟨r, hr, hphase.symm.trans hw⟩
      · exact ⟨r', hr', hw⟩
  · rw [hf] at hg
    rcases get?_update_cases hr hg with ⟨rfl, rfl⟩ | ⟨-, hg⟩
    · exact ha.trans (h.live hr (hphase.symm.trans hw))
    · exact h.live hg hw

/-- A frame takes no reports any more. -/
theorem close (h : WellFormed s) (hr : s.frames.get? f = some r)
    (hsame : ∀ r : Frame, r.SameCall (change r)) (hphase : (change r).ledger.phase ≠ .writable)
    (hf : s'.frames = s.frames.update f change)
    (hs : s'.stack = (s.stack.reverse.erase f).reverse) : WellFormed s' := by
  refine ⟨hf ▸ h.linked.update f hsame, hs ▸ h.ascending_erased, fun g => ?_,
    fun {g r'} hg hw => ?_⟩
  · rw [hs, h.mem_erased, h.mem_stack, hf]
    constructor
    · rintro ⟨hgf, r', hr', hw⟩
      exact ⟨r', (Frames.get?_update_of_ne hgf _).trans hr', hw⟩
    · rintro ⟨r', hr', hw⟩
      rcases get?_update_cases hr hr' with ⟨rfl, rfl⟩ | ⟨hgf, hr'⟩
      · exact absurd hw hphase
      · exact ⟨hgf, r', hr', hw⟩
  · rw [hf] at hg
    rcases get?_update_cases hr hg with ⟨rfl, rfl⟩ | ⟨-, hg⟩
    · exact absurd hw hphase
    · exact h.live hg hw

/-- A frame is opened and put on the stack. -/
theorem openWritable (h : WellFormed s) (hl : Frames.Linked (s.frames ++ [c]))
    (hw : c.ledger.phase = .writable) (ha : c.aborted = false) (hf : s'.frames = s.frames ++ [c])
    (hs : s'.stack = s.stack ++ [s.nextFrame]) : WellFormed s' := by
  refine ⟨hf ▸ hl, ?_, fun g => ?_, fun {g r'} hg hw => ?_⟩
  · rw [hs, List.pairwise_append]
    refine ⟨h.ascending, List.pairwise_singleton _ _, fun g hg f hf => ?_⟩
    obtain ⟨r, hr, -⟩ := (h.mem_stack g).1 hg
    rw [List.mem_singleton.1 hf]
    exact Frames.index_lt_length hr
  · rw [hs, hf, List.mem_append, h.mem_stack, List.mem_singleton]
    constructor
    · rintro (⟨r, hr, hw⟩ | rfl)
      · exact ⟨r, Frames.get?_append_of_some hr _, hw⟩
      · exact ⟨c, Frames.get?_concat_length .., hw⟩
    · rintro ⟨r, hr, hw⟩
      rcases Frames.get?_concat hr with ⟨hg, -⟩ | hr
      · right
        cases g
        simpa [nextFrame] using hg
      · exact .inl ⟨r, hr, hw⟩
  · rw [hf] at hg
    rcases Frames.get?_concat hg with ⟨-, rfl⟩ | hg
    · exact ha
    · exact h.live hg hw

/-- A frame is opened that takes no reports. -/
theorem openSettled (h : WellFormed s) (hl : Frames.Linked (s.frames ++ [c]))
    (hw : c.ledger.phase ≠ .writable) (hf : s'.frames = s.frames ++ [c])
    (hs : s'.stack = s.stack) : WellFormed s' := by
  refine ⟨hf ▸ hl, hs ▸ h.ascending, fun g => ?_, fun {g r'} hg hw' => ?_⟩
  · rw [hs, hf, h.mem_stack]
    constructor
    · rintro ⟨r, hr, hw⟩
      exact ⟨r, Frames.get?_append_of_some hr _, hw⟩
    · rintro ⟨r, hr, hw'⟩
      rcases Frames.get?_concat hr with ⟨-, rfl⟩ | hr
      · exact absurd hw' hw
      · exact ⟨r, hr, hw'⟩
  · rw [hf] at hg
    rcases Frames.get?_concat hg with ⟨-, rfl⟩ | hg
    · exact absurd hw' hw
    · exact h.live hg hw'

theorem freeze (h : WellFormed s) : WellFormed s.freeze := by
  have hsealed : ∀ {f r}, s.freeze.frames.get? f = some r → r.ledger.phase ≠ .writable := by
    intro f r hr
    rw [get?_freeze, Option.map_eq_some_iff] at hr
    obtain ⟨r', -, rfl⟩ := hr
    simp [Frame.frozen, Ledger.freeze]
  refine ⟨linked_freeze h.linked, .nil, fun f => ?_, fun hr hw => absurd hw (hsealed hr)⟩
  refine iff_of_false (List.not_mem_nil) ?_
  rintro ⟨r, hr, hw⟩
  exact hsealed hr hw

/-- An analysis without frames is well-formed, whatever its cache holds. -/
theorem start (config : Config) (cache : Cache) : WellFormed { config, cache } where
  linked := .nil
  ascending := .nil
  mem_stack f := by simp [Frames.get?]
  live hr := by simp [Frames.get?] at hr

theorem after (h : WellFormed s) (op : Operation) : WellFormed (s.after op) := by
  rw [after_eq]
  have hstep := step_cases h.linked op
  generalize s.step op = res at hstep
  cases hstep with
  | failed | answered => exact ⟨h.linked, h.ascending, h.mem_stack, h.live⟩
  | noted _ _ f r _ _ _ _ hr ha hw _ => exact h.update hr (Frame.sameCall_note _) rfl rfl rfl rfl
  | entry signature _ =>
    exact h.openWritable (h.linked.concat_entry rfl rfl rfl) rfl rfl rfl rfl
  | analyze signature site c _ hc =>
    exact h.openWritable (h.linked.concat_callee hc rfl rfl rfl) rfl rfl rfl rfl
  | restored signature site c call _ hc =>
    exact h.openSettled (h.linked.concat_callee hc rfl rfl rfl) (by simp [Frame.restored]) rfl rfl
  | aborted f r _ _ _ _ hr ha hw =>
    exact h.close hr (Frame.sameCall_failed _ _ _) (by simp [Frame.failed, Frame.closed]) rfl rfl
  | finished f r result body _ hr ha hw =>
    exact h.close hr (Frame.sameCall_finished _ _ _ _) (by simp) rfl rfl
  | published f r result _ hr ha hf =>
    exact h.update hr (Frame.sameCall_published _ _) (r.phase_published _ _)
      (r.aborted_published _ _) rfl rfl
  | frozen => exact h.freeze

/-- If all callers of a settled frame are being analysed, publishing a result keeps its call and no
other. -/
theorem run_publishResult (h : WellFormed s) (result : Ty) (hr : s.frames.get? f = some r)
    (ha : r.aborted = false) (hs : r.ledger.phase = .settled)
    (hcallers : ∀ g, s.frames.Beneath f g → g ∈ s.stack) : ∃ removed events,
      (publishResult f result).run s = .ok removed { s with
        frames := s.frames.update f (Frame.published s.strictness result)
        cache := Frames.keepIn (s.frames.update f (Frame.published s.strictness result))
          s.partition s.cache f
        events } := by
  let frames := s.frames.update f (Frame.published s.strictness result)
  have hsame := Frame.sameCall_published s.strictness result
  have hl : frames.Linked := h.linked.update f hsame
  have hnone : frames.settledCallers f = [] := by
    refine List.eq_nil_iff_forall_not_mem.2 fun g hg => ?_
    obtain ⟨hb, r', hr', hsettled⟩ :=
      (Frames.mem_settledCallers hl (get?_update_self hr _)).1 hg
    have hb' := ((Frames.extends_update s.frames f hsame).beneath_iff h.linked hl hr).1 hb
    obtain ⟨r'', hr'', hw⟩ := (h.mem_stack g).1 (hcallers g hb')
    have hne : g ≠ f := by
      rintro rfl
      exact Nat.lt_irrefl _ (hb'.lt h.linked hr).1
    rw [Frames.get?_update_of_ne hne, hr''] at hr'
    rw [Option.some.inj hr', hsettled] at hw
    cases hw
  obtain ⟨events, hrun⟩ :=
    Analysis.run_publishResult result h.linked hr ha (by simp [hs])
  have hkept : frames.keptAnew f r.ledger.phase (retractedBy s.strictness result r) = [f] := by
    rw [Frames.keptAnew, if_pos hs, hnone, ite_self]
  rw [hkept] at hrun
  exact ⟨_, events, hrun⟩

theorem run (h : WellFormed s) (ops : List Operation) : WellFormed (s.run ops) := by
  induction ops generalizing s with
  | nil => exact h
  | cons op ops ih => exact ih (h.after op)

end WellFormed

end FrameAudit.Analysis
