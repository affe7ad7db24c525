import FrameAudit.Proofs.Analysis.WellFormed

/-! # Where call paths start

The path of a report in a ledger is the path of the callers of that frame, continued by at least one
step, which is at the frame itself; the path of a report in the cache starts at the call it is kept
for. -/

namespace FrameAudit

/-- The first step of the path is at a call with the given signature. -/
def CallPath.StartsAt (path : CallPath) (signature : Signature) : Prop :=
  ∃ position rest, path = ⟨signature, position⟩ :: rest

namespace CallPath

variable {path : CallPath} {signature : Signature}

theorem StartsAt.append (h : path.StartsAt signature) (rest : CallPath) :
    StartsAt (path ++ rest) signature := by
  obtain ⟨position, steps, rfl⟩ := h
  exact ⟨position, steps ++ rest, rfl⟩

theorem StartsAt.length_pos (h : path.StartsAt signature) : 0 < path.length := by
  obtain ⟨position, steps, rfl⟩ := h
  exact Nat.succ_pos _

end CallPath

namespace Frames

variable {frames old new : Frames} {f g : FrameId} {r c : Frame} {path : CallPath}
  {change : Frame → Frame}

/-- The path leads through the callers of the frame and the frame itself. -/
def Roots (frames : Frames) (f : FrameId) (r : Frame) (path : CallPath) : Prop :=
  ∃ rest, CallPath.StartsAt rest r.signature ∧ path = frames.callerPath f ++ rest

theorem Roots.length_gt (h : Roots frames f r path) (hl : Linked frames)
    (hr : frames.get? f = some r) : r.depth < path.length := by
  obtain ⟨rest, hrest, rfl⟩ := h
  have := hrest.length_pos
  rw [List.length_append, hl.length_callerPath hr]
  omega

theorem roots_reportAt (frames : Frames) (f : FrameId) (r : Frame) (position : Position)
    (finding : Finding) :
    Roots frames f r (r.reportAt (frames.callerPath f) position finding).path :=
  ⟨[⟨r.signature, position⟩], ⟨position, [], rfl⟩, rfl⟩

/-- The callers of a frame beneath another one lead through that one. -/
theorem Beneath.callerPath_eq (h : Beneath frames g f) (hl : Linked frames)
    (hr : frames.get? f = some r) :
    ∃ steps, CallPath.StartsAt steps r.signature ∧
      frames.callerPath g = frames.callerPath f ++ steps := by
  induction h with
  | direct hg hs =>
    exact ⟨_, ⟨_, [], rfl⟩, hl.callerPath_callee hg hs hr⟩
  | through hg hs hb ih =>
    obtain ⟨steps, hsteps, heq⟩ := ih hr
    obtain ⟨-, -, c, hc, -⟩ := hl.callee hg hs
    have hpath := hl.callerPath_callee hg hs hc
    rw [heq, List.append_assoc] at hpath
    exact ⟨_, hsteps.append _, hpath⟩

/-- The reports of all ledgers are at their frames or at calls beneath them. -/
def Rooted (frames : Frames) : Prop :=
  ∀ ⦃f r⦄, frames.get? f = some r → ∀ ρ ∈ r.ledger.reports, Roots frames f r ρ.path

namespace Rooted

theorem update (h : Rooted frames) (hr : frames.get? f = some r)
    (hsame : ∀ r : Frame, r.SameCall (change r))
    (hP : ∀ ρ ∈ (change r).ledger.reports, Roots frames f r ρ.path) :
    Rooted (frames.update f change) := by
  intro g r' hr' ρ hρ
  rw [Roots, callerPath_update _ _ _ hsame]
  rcases get?_update_cases hr hr' with ⟨rfl, rfl⟩ | ⟨-, hr'⟩
  · rw [(hsame r).signature]
    exact hP ρ hρ
  · exact h hr' ρ hρ

theorem concat (h : Rooted frames) (hl : Linked frames) (hl' : Linked (frames ++ [c]))
    (hP : ∀ ρ ∈ c.ledger.reports, Roots (frames ++ [c]) ⟨frames.length⟩ c ρ.path) :
    Rooted (frames ++ [c]) := by
  intro g r hr ρ hρ
  rcases get?_concat hr with ⟨hg, rfl⟩ | hr
  · obtain ⟨i⟩ := g
    obtain rfl : i = frames.length := hg
    exact hP ρ hρ
  · rw [Roots, Extends.callerPath_eq (extends_append frames [c]) hl hl' hr]
    exact h hr ρ hρ

/-- Seen from a frame, all reports beneath it start at the frame. -/
theorem startsAt_callOf (h : Rooted frames) (hl : Linked frames) (hr : frames.get? f = some r) :
    ∀ ρ ∈ (frames.callOf f r).reports, ρ.path.StartsAt r.signature := by
  intro ρ hρ
  obtain ⟨g, r', hr', hgf, own, hown, rfl⟩ := hl.mem_subtreeReports.1 hρ
  obtain ⟨rest, hrest, hpath⟩ := h hr' own hown
  rw [Report.below, CallPath.below, hpath, ← hl.length_callerPath hr]
  rcases hgf with rfl | hb
  · obtain rfl := Option.some.inj (hr.symm.trans hr')
    rwa [List.drop_left]
  · obtain ⟨steps, hsteps, heq⟩ := hb.callerPath_eq hl hr
    rw [heq, List.append_assoc, List.drop_left]
    exact hsteps.append rest

end Rooted

end Frames

namespace Cache

/-- Every report of the cache starts at the call it is kept for. -/
def Rooted (c : Cache) : Prop :=
  ∀ ⦃slot call⦄, c.get? slot = some call → ∀ ρ ∈ call.reports, ρ.path.StartsAt slot.signature

end Cache

namespace Analysis

variable {s : Analysis}

structure Rooted (s : Analysis) : Prop where
  wellFormed : WellFormed s
  frames : s.frames.Rooted
  cache : s.cache.Rooted

namespace Rooted

theorem start (config : Config) {cache : Cache} (h : cache.Rooted) : Rooted { config, cache } :=
  ⟨.start config cache, fun _ _ hr => by simp [Frames.get?] at hr, h⟩

private theorem frames_after (h : Rooted s) (op : Operation) : (s.after op).frames.Rooted := by
  have hl := h.wellFormed.linked
  rw [after_eq]
  have hstep := step_cases hl op
  generalize s.step op = res at hstep
  cases hstep with
  | failed | answered => exact h.frames
  | noted _ _ f r position finding _ _ hr _ _ _ =>
    exact h.frames.update hr (Frame.sameCall_note _)
      (Frame.forall_mem_note (h.frames hr) (Frames.roots_reportAt ..))
  | entry signature _ =>
    refine h.frames.concat hl (hl.concat_entry rfl rfl rfl) fun ρ hρ => ?_
    exact absurd hρ List.not_mem_nil
  | analyze signature site c _ hc _ _ _ =>
    refine h.frames.concat hl (hl.concat_callee hc rfl rfl rfl) fun ρ hρ => ?_
    exact absurd hρ List.not_mem_nil
  | restored signature site c call _ hc _ _ hk =>
    refine h.frames.concat hl (hl.concat_callee hc rfl rfl rfl) ?_
    refine Frame.forall_mem_restored rfl fun ρ hρ => ⟨ρ.path, h.cache hk ρ hρ, ?_⟩
    rw [hl.callerPath_opened hc rfl rfl rfl]
    rfl
  | aborted f r _ _ _ _ hr _ _ =>
    exact h.frames.update hr (Frame.sameCall_failed _ _ _)
      (Frame.forall_mem_note (h.frames hr) (Frames.roots_reportAt ..))
  | finished f r _ _ _ hr _ _ =>
    exact h.frames.update hr (Frame.sameCall_finished _ _ _ _)
      (Frame.forall_mem_finished (h.frames hr) (fun _ _ => Frames.roots_reportAt ..)
        fun _ _ => Frames.roots_reportAt ..)
  | published f r _ _ hr _ _ =>
    exact h.frames.update hr (Frame.sameCall_published _ _)
      (Frame.forall_mem_retracted (h.frames hr))
  | frozen =>
    intro f r hr ρ hρ
    rw [leaves, get?_freeze, Option.map_eq_some_iff] at hr
    obtain ⟨r, hr, rfl⟩ := hr
    rw [Frames.Roots, leaves,
      Frames.Extends.callerPath_eq s.extends_freeze hl (linked_freeze hl) hr]
    exact h.frames hr ρ hρ

theorem after (h : Rooted s) (op : Operation) : Rooted (s.after op) := by
  refine ⟨h.wellFormed.after op, h.frames_after op, fun slot call hk => ?_⟩
  have hframes := h.frames_after op
  have hl := (h.wellFormed.after op).linked
  rw [after_eq] at hk hframes hl
  rcases (step_cases h.wellFormed.linked op).cache_cases hk with hk | ⟨f, r, hr, -, rfl, rfl⟩
  · exact h.cache hk
  · exact hframes.startsAt_callOf hl hr.get?

end Rooted

end Analysis

end FrameAudit
