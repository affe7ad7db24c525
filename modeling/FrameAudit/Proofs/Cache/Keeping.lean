import FrameAudit.Proofs.Cache.FiniteMap
import FrameAudit.Proofs.Frame.Subtree

/-! # Keeping the calls of frames

Keeping the calls of some frames as a function on the cache: what is kept afterwards was there
before or is the call of one of the frames, and the calls of frames of different signatures do not
get in each other's way. -/

namespace FrameAudit.Frames

variable {frames : Frames} {p : Partition} {c : Cache} {f g : FrameId} {fs : List FrameId}
  {r : Frame} {slot : Cache.Slot} {call : CachedCall}

/-- The frame is one whose call is kept, namely `r`: it is no entry and not aborted. -/
structure Keeps (frames : Frames) (f : FrameId) (r : Frame) : Prop where
  get? : frames.get? f = some r
  isEntry : r.isEntry = false
  aborted : r.aborted = false

/-- The call of a frame with its current result, and the reports of all frames beneath it. -/
def callOf (frames : Frames) (f : FrameId) (r : Frame) : CachedCall :=
  ⟨r.result, frames.subtreeReports f r.depth⟩

/-- Keeps the call of a frame. -/
def keepIn (frames : Frames) (p : Partition) (c : Cache) (f : FrameId) : Cache :=
  match frames.get? f with
  | some r =>
    if r.isEntry || r.aborted then c else c.insert ⟨p, r.signature⟩ (frames.callOf f r)
  | none => c

/-- The settled ones among the callers of a frame, innermost first. -/
def settledCallers (frames : Frames) (f : FrameId) : List FrameId :=
  ((frames.callSites f).map CallSite.caller).filter fun g =>
    (frames.get? g).any fun r => r.ledger.phase = .settled

/-- The frames whose calls are kept when a result is published for a frame and `removed` reports are
retracted from it: none unless it is settled. -/
def keptAnew (frames : Frames) (f : FrameId) (phase : Phase) (removed : Nat) : List FrameId :=
  if phase = .settled then f :: if 0 < removed then frames.settledCallers f else [] else []

theorem keepIn_of_keeps (h : frames.Keeps f r) :
    frames.keepIn p c f = c.insert ⟨p, r.signature⟩ (frames.callOf f r) := by
  simp [keepIn, h.get?, h.isEntry, h.aborted]

theorem keepIn_of_not_keeps (h : ∀ r, ¬frames.Keeps f r) : frames.keepIn p c f = c := by
  unfold keepIn
  split
  next r hr =>
    refine if_pos ?_
    by_contra hk
    simp only [Bool.or_eq_true, not_or, Bool.not_eq_true] at hk
    exact h r ⟨hr, hk.1, hk.2⟩
  next => rfl

theorem get?_keepIn_of_keeps (h : frames.Keeps f r) :
    (frames.keepIn p c f).get? ⟨p, r.signature⟩ = some (frames.callOf f r) := by
  rw [keepIn_of_keeps h, Cache.get?_insert, if_pos rfl]

theorem get?_keepIn_of_ne (h : ∀ r, frames.Keeps f r → slot ≠ ⟨p, r.signature⟩) :
    (frames.keepIn p c f).get? slot = c.get? slot := by
  by_cases hk : ∃ r, frames.Keeps f r
  · obtain ⟨r, hr⟩ := hk
    rw [keepIn_of_keeps hr, Cache.get?_insert, if_neg (h r hr)]
  · rw [keepIn_of_not_keeps (not_exists.1 hk)]

theorem get?_keepIn_cases (h : (frames.keepIn p c f).get? slot = some call) :
    c.get? slot = some call ∨
      ∃ r, frames.Keeps f r ∧ slot = ⟨p, r.signature⟩ ∧ call = frames.callOf f r := by
  by_cases hk : ∃ r, frames.Keeps f r ∧ slot = ⟨p, r.signature⟩
  · obtain ⟨r, hr, rfl⟩ := hk
    rw [get?_keepIn_of_keeps hr] at h
    exact .inr ⟨r, hr, rfl, (Option.some.inj h).symm⟩
  · rw [get?_keepIn_of_ne fun r hr hs => hk ⟨r, hr, hs⟩] at h
    exact .inl h

/-- Keeping the call of a frame makes up for having kept an earlier state of it. -/
theorem get?_keepIn_keepIn {old : Frames} {r' : Frame} (hr : old.get? f = some r)
    (hr' : frames.get? f = some r') (hsame : r.SameCall r') (ha : r'.aborted = r.aborted) :
    (frames.keepIn p (old.keepIn p c f) f).get? slot = (frames.keepIn p c f).get? slot := by
  by_cases hk : frames.Keeps f r'
  · rw [keepIn_of_keeps hk, keepIn_of_keeps hk, Cache.get?_insert, Cache.get?_insert]
    split
    next => rfl
    next hne =>
      refine get?_keepIn_of_ne fun r'' hr'' heq => hne ?_
      obtain rfl := Option.some.inj (hr.symm.trans hr''.get?)
      rw [heq, hsame.signature]
  · have hold : ∀ r'', ¬old.Keeps f r'' := by
      intro r'' hr''
      obtain rfl := Option.some.inj (hr.symm.trans hr''.get?)
      exact hk ⟨hr', hsame.isEntry.trans hr''.isEntry, ha.trans hr''.aborted⟩
    rw [keepIn_of_not_keeps hold]

theorem isSome_get?_keepIn (h : (c.get? slot).isSome) :
    ((frames.keepIn p c f).get? slot).isSome := by
  by_cases hk : ∃ r, frames.Keeps f r ∧ slot = ⟨p, r.signature⟩
  · obtain ⟨r, hr, rfl⟩ := hk
    rw [get?_keepIn_of_keeps hr]
    rfl
  · rwa [get?_keepIn_of_ne fun r hr hs => hk ⟨r, hr, hs⟩]

theorem Keeps.update {change : Frame → Frame} (h : frames.Keeps f r)
    (hsame : ∀ r : Frame, r.SameCall (change r)) (haborted : (change r).aborted = r.aborted) :
    (frames.update f change).Keeps f (change r) :=
  ⟨get?_update_self h.get? _, (hsame r).isEntry.trans h.isEntry, haborted.trans h.aborted⟩

theorem Keeps.update_cases {r' : Frame} {change : Frame → Frame} (hr : frames.get? f = some r)
    (h : (frames.update f change).Keeps g r') :
    (g = f ∧ r' = change r) ∨ (g ≠ f ∧ frames.Keeps g r') := by
  rcases get?_update_cases hr h.get? with hg | ⟨hne, hg⟩
  · exact .inl hg
  · exact .inr ⟨hne, hg, h.isEntry, h.aborted⟩

theorem Keeps.concat_cases {c : Frame} (h : Keeps (frames ++ [c]) g r) :
    (g = ⟨frames.length⟩ ∧ r = c) ∨ frames.Keeps g r := by
  rcases get?_concat h.get? with ⟨hi, hc⟩ | hg
  · obtain ⟨i⟩ := g
    exact .inl ⟨congrArg FrameId.mk hi, hc⟩
  · exact .inr ⟨hg, h.isEntry, h.aborted⟩

theorem Keeps.of_update {r' r'' : Frame} {change : Frame → Frame} (hr : frames.get? f = some r')
    (hsame : ∀ r : Frame, r.SameCall (change r))
    (haborted : (change r').aborted = false → r'.aborted = false)
    (h : (frames.update f change).Keeps g r'') : ∃ r, frames.Keeps g r ∧ r.SameCall r'' := by
  rcases get?_update_cases hr h.get? with ⟨rfl, rfl⟩ | ⟨-, hg⟩
  · exact ⟨r', ⟨hr, (hsame r').isEntry.symm.trans h.isEntry, haborted h.aborted⟩, hsame r'⟩
  · exact ⟨r'', ⟨hg, h.isEntry, h.aborted⟩, .refl r''⟩

theorem mem_settledCallers (hl : Linked frames) (hr : frames.get? f = some r) :
    g ∈ frames.settledCallers f ↔
      Beneath frames f g ∧ ∃ r', frames.get? g = some r' ∧ r'.ledger.phase = .settled := by
  rw [settledCallers, List.mem_filter, List.mem_map, hl.beneath_iff_mem_callSites hr]
  simp [Option.any_eq_true]

theorem settled_of_mem_keptAnew {phase : Phase} {removed : Nat} {r' : Frame}
    (hg : frames.get? g = some r') (hphase : (frames.get? f).map (·.ledger.phase) = some phase)
    (h : g ∈ frames.keptAnew f phase removed) : r'.ledger.phase = .settled := by
  unfold keptAnew at h
  split at h
  next hs =>
    rcases List.mem_cons.1 h with rfl | h
    · rw [hg] at hphase
      exact (Option.some.inj hphase).trans hs
    · split at h
      · simpa [hg] using List.of_mem_filter h
      · simp at h
  next => simp at h

/-- When a result is published for a settled frame, its call is kept, and the calls of its settled
callers if something was retracted. -/
theorem mem_keptAnew {phase : Phase} {removed : Nat} (hl : Linked frames)
    (hr : frames.get? f = some r) (hs : phase = .settled) :
    g ∈ frames.keptAnew f phase removed ↔ g = f ∨ 0 < removed ∧ Beneath frames f g ∧
      ∃ r', frames.get? g = some r' ∧ r'.ledger.phase = .settled := by
  rw [keptAnew, if_pos hs, List.mem_cons, ← mem_settledCallers hl hr]
  refine or_congr_right ?_
  split
  next hremoved => exact (and_iff_right hremoved).symm
  next hremoved => exact iff_of_false List.not_mem_nil fun h => hremoved h.1

/-- The reports of a kept call come from the ledgers of callees. -/
theorem Linked.exists_ledger_of_callOf (hl : Linked frames) (h : frames.Keeps f r) {ρ : Report}
    (hρ : ρ ∈ (frames.callOf f r).reports) : ∃ g r', frames.get? g = some r' ∧ r'.isEntry = false ∧
      (g = f ∨ Beneath frames g f) ∧ ∃ own ∈ r'.ledger.reports, ρ = own.below r.depth := by
  obtain ⟨g, r', hr', hgf, hown⟩ := hl.mem_subtreeReports.1 hρ
  refine ⟨g, r', hr', ?_, hgf, hown⟩
  rcases hgf with rfl | hb
  · exact Option.some.inj (h.get?.symm.trans hr') ▸ h.isEntry
  · exact hb.isEntry hl hr'

/-! ## Several frames -/

theorem get?_foldl_keepIn_of_ne (h : ∀ f ∈ fs, ∀ r, frames.Keeps f r → slot ≠ ⟨p, r.signature⟩) :
    (fs.foldl (frames.keepIn p) c).get? slot = c.get? slot := by
  induction fs generalizing c with
  | nil => rfl
  | cons f fs ih =>
    rw [List.foldl_cons, ih fun g hg => h g (List.mem_cons_of_mem _ hg),
      get?_keepIn_of_ne (h f List.mem_cons_self)]

theorem get?_foldl_keepIn_cases (h : (fs.foldl (frames.keepIn p) c).get? slot = some call) :
    c.get? slot = some call ∨ ∃ f ∈ fs, ∃ r, frames.Keeps f r ∧ slot = ⟨p, r.signature⟩ ∧
      call = frames.callOf f r := by
  induction fs generalizing c with
  | nil => exact .inl h
  | cons f fs ih =>
    rcases ih h with h | ⟨g, hg, r, hr⟩
    · rcases get?_keepIn_cases h with h | ⟨r, hr⟩
      · exact .inl h
      · exact .inr ⟨f, List.mem_cons_self, r, hr⟩
    · exact .inr ⟨g, List.mem_cons_of_mem _ hg, r, hr⟩

theorem isSome_get?_foldl_keepIn (h : (c.get? slot).isSome) :
    ((fs.foldl (frames.keepIn p) c).get? slot).isSome := by
  induction fs generalizing c with
  | nil => exact h
  | cons f fs ih => exact ih (isSome_get?_keepIn h)

/-- The call of a frame is kept if no other of the frames has its signature. -/
theorem get?_foldl_keepIn_of_keeps (h : frames.Keeps f r) (hf : f ∈ fs)
    (hne : ∀ g ∈ fs, ∀ r', frames.Keeps g r' → r'.signature = r.signature → g = f) :
    (fs.foldl (frames.keepIn p) c).get? ⟨p, r.signature⟩ = some (frames.callOf f r) := by
  induction fs generalizing c with
  | nil => simp at hf
  | cons g fs ih =>
    have hne' : ∀ g ∈ fs, ∀ r', frames.Keeps g r' → r'.signature = r.signature → g = f :=
      fun g hg => hne g (List.mem_cons_of_mem _ hg)
    by_cases hmem : f ∈ fs
    · exact ih hmem hne'
    · obtain rfl : f = g := (List.mem_cons.1 hf).resolve_right hmem
      rw [List.foldl_cons, get?_foldl_keepIn_of_ne, get?_keepIn_of_keeps h]
      intro g hg r' hr' hs
      have := hne' g hg r' hr' (by simpa using congrArg Cache.Slot.signature hs.symm)
      exact hmem (this ▸ hg)

/-- A slot of one of the frames holds the call of one of the frames. -/
theorem get?_foldl_keepIn_of_mem (h : frames.Keeps f r) (hf : f ∈ fs) :
    ∃ g ∈ fs, ∃ r', frames.Keeps g r' ∧
      (fs.foldl (frames.keepIn p) c).get? ⟨p, r.signature⟩ = some (frames.callOf g r') := by
  induction fs generalizing c f r with
  | nil => simp at hf
  | cons g fs ih =>
    by_cases hmem : ∃ k ∈ fs, ∃ r', frames.Keeps k r' ∧ r'.signature = r.signature
    · obtain ⟨k, hk, r', hr', hsig⟩ := hmem
      obtain ⟨last, hlast, r'', hr'', hget⟩ := ih hr' hk
      exact ⟨last, List.mem_cons_of_mem _ hlast, r'', hr'', hsig ▸ hget⟩
    · obtain rfl : f = g := (List.mem_cons.1 hf).resolve_right fun hf => hmem ⟨f, hf, r, h, rfl⟩
      refine ⟨f, List.mem_cons_self, r, h, ?_⟩
      rw [List.foldl_cons, get?_foldl_keepIn_of_ne, get?_keepIn_of_keeps h]
      intro k hk r' hr' hs
      exact hmem ⟨k, hk, r', hr', (congrArg Cache.Slot.signature hs).symm⟩

/-! ## When the call of a frame stays the same -/

variable {r' : Frame} {change : Frame → Frame}

theorem callOf_congr {new : Frames} (hext : Extends frames new) (hl : Linked frames)
    (hl' : Linked new) (hlen : frames.length ≤ new.length)
    (hopened : ∀ g, frames.get? g = none → ¬Beneath new g f)
    (hsame : ∀ g, g = f ∨ Beneath frames g f → new.ledgerReports g = frames.ledgerReports g) :
    new.callOf f r = frames.callOf f r := by
  rw [callOf, callOf, hext.subtreeReports_eq hl hl' hlen hopened hsame]

/-- A change of a frame that is not beneath, or leaves the reports as they are. -/
theorem callOf_update (hl : Linked frames) (hsame : ∀ r : Frame, r.SameCall (change r))
    (hreports : ∀ r', frames.get? g = some r' → g = f ∨ Beneath frames g f →
      (change r').ledger.reports = r'.ledger.reports) :
    (frames.update g change).callOf f r = frames.callOf f r := by
  refine callOf_congr (extends_update frames g hsame) hl (hl.update g hsame)
    (Nat.le_of_eq (length_update ..).symm) ?_ ?_
  · intro h hh hbeneath
    obtain ⟨r'', hr''⟩ := hbeneath.exists_frame
    have hlt := index_lt_length hr''
    rw [length_update] at hlt
    exact absurd (List.getElem?_eq_none_iff.1 hh) (Nat.not_le.2 hlt)
  · intro h hh
    rw [ledgerReports, get?_update]
    by_cases hhg : h = g
    · subst hhg
      cases hr : frames.get? h with
      | none => simp [ledgerReports, hr]
      | some r' => simp [ledgerReports, hr, hreports r' hr hh]
    · rw [if_neg hhg, ledgerReports]

/-- A frame that is opened elsewhere. -/
theorem callOf_concat {c : Frame} (hl : Linked frames) (hl' : Linked (frames ++ [c]))
    (hr : frames.get? f = some r') (hb : ¬Beneath (frames ++ [c]) ⟨frames.length⟩ f) :
    callOf (frames ++ [c]) f r = frames.callOf f r := by
  refine callOf_congr (extends_append frames [c]) hl hl' (by simp) ?_ ?_
  · intro g hg hbeneath
    obtain ⟨r'', hr''⟩ := hbeneath.exists_frame
    rcases get?_concat hr'' with ⟨hlen, -⟩ | hr''
    · obtain ⟨i⟩ := g
      obtain rfl : i = frames.length := hlen
      exact hb hbeneath
    · simp [hg] at hr''
  · intro g hg
    obtain ⟨r'', hr''⟩ : ∃ r'', frames.get? g = some r'' := by
      rcases hg with rfl | hg
      · exact ⟨r', hr⟩
      · exact hg.exists_frame
    rw [ledgerReports_of_some (get?_append_of_some hr'' _), ledgerReports_of_some hr'']

end FrameAudit.Frames
