import FrameAudit.Proofs.Analysis.History
import FrameAudit.Proofs.Session.Retraction
import Mathlib.Data.List.Induction

/-! # The result that a call is kept with

A run gives results for calls: it finishes their frames, and publishes results for finished ones.
Several frames may be of one call, each with a result of its own. When publishing a value retracts
an uncaught raise, the finished callers of the frame are kept anew, each with the result of its own
frame, which need not be the one that was last given for the call. The calls of a run are kept with
their last results as long as there is no such caller; the first one there is replaces a result by
an earlier one. -/

namespace FrameAudit

namespace Frames

variable {frames : Frames} {f g : FrameId} {r r' : Frame} {p : Partition} {c : Cache}

/-- The frame is settled and its call is kept, and that of none of its callers is kept under the
same signature. -/
structure KeptLast (frames : Frames) (g : FrameId) (r : Frame) : Prop where
  keeps : frames.Keeps g r
  settled : r.ledger.phase = .settled
  outermost : ∀ k r', frames.Beneath g k → frames.Keeps k r' → r'.ledger.phase = .settled →
    r'.signature ≠ r.signature

/-- Of the settled frames of one call among a frame and its callers, there is a last one. -/
theorem Linked.exists_keptLast (hl : frames.Linked) (hg : frames.Keeps g r)
    (hs : r.ledger.phase = .settled) : ∃ k r', (k = g ∨ frames.Beneath g k) ∧
      frames.KeptLast k r' ∧ r'.signature = r.signature := by
  -- callers are older than their callees
  induction hn : g.index using Nat.strongRecOn generalizing g r with
  | ind n ih =>
    by_cases hlast : frames.KeptLast g r
    · exact ⟨g, r, .inl rfl, hlast, rfl⟩
    · obtain ⟨k, r', hb, hk, hs', hsig⟩ : ∃ k r', frames.Beneath g k ∧ frames.Keeps k r' ∧
          r'.ledger.phase = .settled ∧ r'.signature = r.signature := by
        by_contra hnone
        exact hlast ⟨hg, hs, fun k r' hb hk hs' hsig => hnone ⟨k, r', hb, hk, hs', hsig⟩⟩
      have hlt := (hb.lt hl hg.get?).1
      obtain ⟨m, r'', hm, hmlast, hmsig⟩ := ih k.index (hn ▸ hlt) hk hs' rfl
      refine ⟨m, r'', .inr ?_, hmlast, hmsig.trans hsig⟩
      rcases hm with rfl | hm
      · exact hb
      · exact hb.trans hm

/-- The callers of a settled caller come after it. -/
theorem Linked.settledCallers_split (hl : frames.Linked) (hb : frames.Beneath f g)
    (hg : frames.get? g = some r) (hs : r.ledger.phase = .settled) :
    ∃ inner, frames.settledCallers f = inner ++ g :: frames.settledCallers g := by
  induction hb with
  | direct hr hsite =>
    refine ⟨[], ?_⟩
    rw [settledCallers, hl.callSites_callee hr hsite, List.map_cons, List.filter_cons_of_pos]
    · rfl
    · simp [hg, hs]
  | through hr hsite _ ih =>
    obtain ⟨inner, ih⟩ := ih hg
    rw [settledCallers, hl.callSites_callee hr hsite, List.map_cons, List.filter_cons]
    split
    · exact ⟨_ :: inner, congrArg _ ih⟩
    · exact ⟨inner, ih⟩

theorem Linked.settledCallers_update {change : Frame → Frame} (hl : frames.Linked)
    (hr : frames.get? f = some r) (hsame : ∀ r : Frame, r.SameCall (change r))
    (hphase : ∀ r : Frame, (change r).ledger.phase = r.ledger.phase) :
    (frames.update f change).settledCallers f = frames.settledCallers f := by
  rw [settledCallers, (extends_update frames f hsame).callSites_eq hl (hl.update f hsame) hr,
    settledCallers]
  refine List.filter_congr fun g _ => ?_
  rw [get?_update]
  split
  next hgf => simp [hgf, hr, hphase]
  next => rfl

/-- The last of the frames of a call is the one that is kept. -/
theorem get?_foldl_keepIn_of_last {inner outer : List FrameId} (hg : frames.Keeps g r)
    (hne : ∀ k ∈ outer, ∀ r', frames.Keeps k r' → r'.signature ≠ r.signature) :
    ((inner ++ g :: outer).foldl (frames.keepIn p) c).get? ⟨p, r.signature⟩ =
      some (frames.callOf g r) := by
  rw [List.foldl_append, List.foldl_cons, get?_foldl_keepIn_of_ne, get?_keepIn_of_keeps hg]
  intro k hk r' hr' hslot
  exact hne k hk r' hr' (congrArg Cache.Slot.signature hslot).symm

end Frames

namespace Analysis

variable {s : Analysis} {f g : FrameId} {r r' : Frame} {op : Operation} {ops : List Operation}
  {signature : Signature} {result : Ty} {body : List Instruction}
  {results : Signature → Option Ty}

/-! ## The results that a run gives -/

/-- The result that an operation gives for a call, by finishing a frame of it or by publishing a
result for a finished one. -/
def given? (s : Analysis) (op : Operation) (signature : Signature) : Option Ty :=
  match op, s.step op with
  | .finishFrame f result _, .ok _ _ =>
    if (s.frames.get? f).any fun r => !r.isEntry && r.signature = signature then some result
    else none
  | .publishResult f result, .ok _ _ =>
    if (s.frames.get? f).any fun r =>
        !r.isEntry && r.signature = signature && r.ledger.phase = .settled then some result
    else none
  | _, _ => none

/-- The result that the last of the operations to do so gives for a call. -/
def lastGiven? (s : Analysis) : List Operation → Signature → Option Ty
  | [], _ => none
  | op :: ops, signature => ((s.after op).lastGiven? ops signature).or (s.given? op signature)

/-- The results after an operation that gives some. -/
def resultsAfter (s : Analysis) (results : Signature → Option Ty) (op : Operation) :
    Signature → Option Ty :=
  fun signature => (s.given? op signature).or (results signature)

/-- The calls are kept with these results. -/
def KeptWith (s : Analysis) (results : Signature → Option Ty) : Prop :=
  ∀ signature result, results signature = some result →
    ∃ call, s.cache.get? ⟨s.partition, signature⟩ = some call ∧ call.result = result

/-- If the operation retracts uncaught raises of a finished frame, so that its finished callers are
kept anew, then these have the results for their calls. -/
def Undisturbed (s : Analysis) (results : Signature → Option Ty) : Operation → Prop
  | .publishResult f result => s.strictness = .basic → result.isBottom = false →
    ∀ r, s.frames.Keeps f r → r.ledger.phase = .settled →
      (∃ ρ ∈ r.ledger.reports, ρ.kind = .uncaughtException) →
      ∀ g r', s.frames.Beneath f g → s.frames.KeptLast g r' →
        ∀ last, results r'.signature = some last → r'.result = last
  | _ => True

theorem lastGiven?_concat (s : Analysis) (ops : List Operation) (op : Operation) :
    s.lastGiven? (ops ++ [op]) = (s.run ops).resultsAfter (s.lastGiven? ops) op := by
  funext signature
  induction ops generalizing s with
  | nil => simp [lastGiven?, resultsAfter, run]
  | cons first ops ih =>
    rw [List.cons_append, lastGiven?, ih, resultsAfter, Option.or_assoc]
    rfl

theorem given?_refused {fault : Fault} (h : s.refusal? op = some fault) :
    s.given? op signature = none := by
  obtain ⟨events, hstep⟩ := step_refused h
  unfold given?
  rw [hstep]
  cases op <;> rfl

theorem given?_finishFrame (signature : Signature) (result : Ty) (body : List Instruction)
    (hr : s.frames.get? f = some r) (ha : r.aborted = false) (hw : r.ledger.phase = .writable) :
    s.given? (.finishFrame f result body) signature =
      if r.isEntry = false ∧ r.signature = signature then some result else none := by
  obtain ⟨events, hrun⟩ := run_finishFrame result body hr ha hw
  have hstep : s.step (.finishFrame f result body) = _ := step_ok rfl hrun
  simp [given?, hstep, hr]

theorem given?_publishResult (signature : Signature) (result : Ty) (hl : s.frames.Linked)
    (hr : s.frames.get? f = some r) (ha : r.aborted = false) (hf : r.ledger.phase ≠ .frozen) :
    s.given? (.publishResult f result) signature =
      if r.isEntry = false ∧ r.signature = signature ∧ r.ledger.phase = .settled then some result
      else none := by
  obtain ⟨events, hrun⟩ := run_publishResult result hl hr ha hf
  have hstep : s.step (.publishResult f result) = _ := step_ok rfl hrun
  simp [given?, hstep, hr, and_assoc]

/-! ## One operation -/

theorem resultsAfter_of_none (h : s.given? op signature = none) :
    s.resultsAfter results op signature = results signature := by
  rw [resultsAfter, h, Option.none_or]

theorem resultsAfter_of_some (h : s.given? op signature = some result) :
    s.resultsAfter results op signature = some result := by
  rw [resultsAfter, h, Option.some_or]

theorem KeptWith.after_refused {fault : Fault} (hk : s.KeptWith results)
    (h : s.refusal? op = some fault) : (s.after op).KeptWith (s.resultsAfter results op) := by
  obtain ⟨events, hafter⟩ := Analysis.after_refused h
  intro signature last hlast
  rw [resultsAfter_of_none (given?_refused h)] at hlast
  rw [hafter]
  exact hk signature last hlast

theorem KeptWith.after_finishFrame (hk : s.KeptWith results) (f : FrameId) (result : Ty)
    (body : List Instruction) : (s.after (.finishFrame f result body)).KeptWith
      (s.resultsAfter results (.finishFrame f result body)) := by
  cases href : s.refusal? (.finishFrame f result body) with
  | some fault => exact hk.after_refused href
  | none =>
    obtain ⟨r, hr, ha, hw⟩ := Frames.refusal?_eq_none.1 href
    replace hw : r.ledger.phase = .writable := by simpa using hw
    obtain ⟨events, hrun⟩ := run_finishFrame result body hr ha hw
    have hgiven := fun signature => given?_finishFrame signature result body hr ha hw
    have hsame := Frame.sameCall_finished s.strictness (s.frames.callerPath f) result body r
    have hself := Frames.get?_update_self hr
      (Frame.finished s.strictness (s.frames.callerPath f) result body)
    rw [after_ok (step_ok rfl hrun)]
    intro signature last hlast
    by_cases hgives : r.isEntry = false ∧ r.signature = signature
    · rw [resultsAfter_of_some ((hgiven signature).trans (if_pos hgives))] at hlast
      obtain ⟨he, rfl⟩ := hgives
      have hkeeps := Frames.Keeps.mk hself (hsame.isEntry.trans he)
        ((r.aborted_finished ..).trans ha)
      refine ⟨_, hsame.signature ▸ Frames.get?_keepIn_of_keeps hkeeps, ?_⟩
      exact (r.result_finished ..).trans (Option.some.inj hlast)
    · rw [resultsAfter_of_none ((hgiven signature).trans (if_neg hgives))] at hlast
      obtain ⟨call, hcall, hresult⟩ := hk signature last hlast
      refine ⟨call, (Frames.get?_keepIn_of_ne fun r' hr' hslot => ?_).trans hcall, hresult⟩
      obtain rfl := Option.some.inj (hself.symm.trans hr'.get?)
      refine hgives ⟨hsame.isEntry.symm.trans hr'.isEntry, ?_⟩
      exact hsame.signature.symm.trans (congrArg Cache.Slot.signature hslot).symm

/-- Nothing else but finishing a frame and publishing a result bears on what is kept. -/
theorem KeptWith.after_other (hk : s.KeptWith results) (hl : s.frames.Linked)
    (hfinish : ∀ f result body, op ≠ .finishFrame f result body)
    (hpublish : ∀ f result, op ≠ .publishResult f result) :
    (s.after op).KeptWith (s.resultsAfter results op) := by
  have hnone : ∀ signature, s.given? op signature = none := by
    intro signature
    unfold given?
    split
    · exact absurd rfl (hfinish _ _ _)
    · exact absurd rfl (hpublish _ _)
    · rfl
  have hstep := step_cases hl op
  rw [after_eq]
  generalize s.step op = res at hstep
  have hcache : (leaves res).cache = s.cache := by
    cases hstep with
    | finished => exact absurd rfl (hfinish _ _ _)
    | published => exact absurd rfl (hpublish _ _)
    | _ => rfl
  intro signature last hlast
  rw [resultsAfter_of_none (hnone signature)] at hlast
  rw [hcache, partition, hstep.config_eq]
  exact hk signature last hlast

/-! ## Publishing a result -/

theorem retractedBy_pos_iff_basic : 0 < retractedBy s.strictness result r ↔
    s.strictness = .basic ∧ result.isBottom = false ∧
      ∃ ρ ∈ r.ledger.reports, ρ.kind = .uncaughtException := by
  by_cases hcond : s.strictness = .basic ∧ result.isBottom = false
  · rw [retractedBy_pos_iff hcond.1 hcond.2]
    exact ⟨fun h => ⟨hcond.1, hcond.2, h⟩, fun h => h.2.2⟩
  · have hzero : retractedBy s.strictness result r = 0 := by
      rw [retractedBy, Frame.retracted, if_neg (by simpa using hcond), Nat.sub_self]
    exact iff_of_false (by omega) fun h => hcond ⟨h.1, h.2.1⟩

/-- What is kept after a result is published for a finished frame. -/
theorem cache_published (result : Ty) (hl : s.frames.Linked) (hf : s.frames.Keeps f r)
    (hs : r.ledger.phase = .settled) : (s.after (.publishResult f result)).cache =
      (f :: if 0 < retractedBy s.strictness result r then s.frames.settledCallers f else []).foldl
        (Frames.keepIn (s.frames.update f (Frame.published s.strictness result)) s.partition)
        s.cache := by
  obtain ⟨events, hafter⟩ := after_publishResult result hl hf.get? hf.aborted (by simp [hs])
  rw [hafter, Frames.keptAnew, if_pos hs, hl.settledCallers_update hf.get?
    (Frame.sameCall_published _ _) (Frame.phase_published _ _)]

/-- Callers of a frame are as they were. -/
theorem keeps_published_iff (hl : s.frames.Linked) (hf : s.frames.get? f = some r)
    (hb : s.frames.Beneath f g) :
    (s.frames.update f (Frame.published s.strictness result)).Keeps g r' ↔
      s.frames.Keeps g r' := by
  have hne : g ≠ f := by
    rintro rfl
    exact Nat.lt_irrefl _ (hb.lt hl hf).1
  have hget : (s.frames.update f (Frame.published s.strictness result)).get? g = s.frames.get? g :=
    Frames.get?_update_of_ne hne _
  exact ⟨fun h => ⟨hget ▸ h.get?, h.isEntry, h.aborted⟩,
    fun h => ⟨hget ▸ h.get?, h.isEntry, h.aborted⟩⟩

/-- If reports are retracted, the finished callers are kept anew with the results of their own
frames. -/
theorem get?_published_of_keptLast (hl : s.frames.Linked) (hf : s.frames.Keeps f r)
    (hs : r.ledger.phase = .settled) (hremoved : 0 < retractedBy s.strictness result r)
    (hb : s.frames.Beneath f g) (hg : s.frames.KeptLast g r') : ∃ call,
      (s.after (.publishResult f result)).cache.get? ⟨s.partition, r'.signature⟩ = some call ∧
        call.result = r'.result := by
  obtain ⟨inner, hsplit⟩ := hl.settledCallers_split hb hg.keeps.get? hg.settled
  rw [cache_published result hl hf hs, if_pos hremoved, hsplit, ← List.cons_append]
  refine ⟨_, Frames.get?_foldl_keepIn_of_last ((keeps_published_iff hl hf.get? hb).2 hg.keeps) ?_,
    rfl⟩
  intro k hk r'' hr'' hsig
  obtain ⟨hgk, r₀, hr₀, hs'⟩ := (Frames.mem_settledCallers hl hg.keeps.get?).1 hk
  rw [keeps_published_iff hl hf.get? (hb.trans hgk)] at hr''
  obtain rfl := Option.some.inj (hr₀.symm.trans hr''.get?)
  exact hg.outermost k r₀ hgk hr'' hs' hsig

/-- A call that is not one of a caller kept anew is the one of the frame or is kept as it was. -/
theorem get?_published_of_none (hl : s.frames.Linked) (hf : s.frames.Keeps f r)
    (hs : r.ledger.phase = .settled) (hnone : 0 < retractedBy s.strictness result r →
      ∀ g r', s.frames.Beneath f g → s.frames.Keeps g r' → r'.ledger.phase = .settled →
        r'.signature ≠ signature) :
    (s.after (.publishResult f result)).cache.get? ⟨s.partition, signature⟩ =
      (Frames.keepIn (s.frames.update f (Frame.published s.strictness result)) s.partition
        s.cache f).get? ⟨s.partition, signature⟩ := by
  rw [cache_published result hl hf hs, List.foldl_cons]
  refine Frames.get?_foldl_keepIn_of_ne fun g hg r' hr' hslot => ?_
  split at hg
  next hremoved =>
    obtain ⟨hb, r₀, hr₀, hs'⟩ := (Frames.mem_settledCallers hl hf.get?).1 hg
    rw [keeps_published_iff hl hf.get? hb] at hr'
    obtain rfl := Option.some.inj (hr₀.symm.trans hr'.get?)
    exact hnone hremoved g r₀ hb hr' hs' (congrArg Cache.Slot.signature hslot).symm
  next => simp at hg

/-- Publishing for a frame that is not finished, or for an entry, keeps nothing anew. -/
theorem KeptWith.after_publishResult_of_not (hk : s.KeptWith results) (hl : s.frames.Linked)
    (hnot : ∀ r, s.frames.Keeps f r → r.ledger.phase ≠ .settled) :
    (s.after (.publishResult f result)).KeptWith
      (s.resultsAfter results (.publishResult f result)) := by
  cases href : s.refusal? (.publishResult f result) with
  | some fault => exact hk.after_refused href
  | none =>
    obtain ⟨r, hr, ha, hfrozen⟩ := Frames.refusal?_eq_none.1 href
    replace hfrozen : r.ledger.phase ≠ .frozen := by simpa using hfrozen
    obtain ⟨events, hafter⟩ := after_publishResult result hl hr ha hfrozen
    have hself := Frames.get?_update_self hr (Frame.published s.strictness result)
    have hl' := hl.update f (Frame.sameCall_published s.strictness result)
    intro signature last hlast
    rw [resultsAfter_of_none] at hlast
    · obtain ⟨call, hcall, hresult⟩ := hk signature last hlast
      rw [hafter]
      refine ⟨call, (Frames.get?_foldl_keepIn_of_ne fun g hg r' hr' _ => ?_).trans hcall, hresult⟩
      by_cases hs : r.ledger.phase = .settled
      · -- the frame is an entry, which is not kept and has no callers
        have he : r.isEntry = true := by
          by_contra he
          exact hnot r ⟨hr, by simpa using he, ha⟩ hs
        have he' := (Frame.sameCall_published s.strictness result r).isEntry.trans he
        rcases (Frames.mem_keptAnew hl' hself hs).1 hg with rfl | ⟨-, hb, -⟩
        · obtain rfl := Option.some.inj (hself.symm.trans hr'.get?)
          cases he'.symm.trans hr'.isEntry
        · cases he'.symm.trans (hb.isEntry hl' hself)
      · simp [Frames.keptAnew, hs] at hg
    · rw [given?_publishResult signature result hl hr ha hfrozen, if_neg]
      exact fun h => hnot r ⟨hr, h.1, ha⟩ h.2.2

/-- The calls stay kept with their last results if the finished callers that are kept anew have
them. -/
theorem KeptWith.after_publishResult_iff (hk : s.KeptWith results) (hl : s.frames.Linked)
    (hf : s.frames.Keeps f r) (hs : r.ledger.phase = .settled) :
    (s.after (.publishResult f result)).KeptWith
        (s.resultsAfter results (.publishResult f result)) ↔
      s.Undisturbed (s.resultsAfter results (.publishResult f result))
        (.publishResult f result) := by
  have hpartition : (s.after (.publishResult f result)).partition = s.partition := by
    rw [after_eq, partition, (step_cases hl _).config_eq, partition]
  have hgiven := fun signature => given?_publishResult signature result hl hf.get? hf.aborted
    (by simp [hs])
  constructor
  · intro hkept hbasic hvalue r₀ hf₀ _ huncaught g r' hb hg last hlast
    obtain rfl := Option.some.inj (hf.get?.symm.trans hf₀.get?)
    have hremoved := retractedBy_pos_iff_basic.2 ⟨hbasic, hvalue, huncaught⟩
    obtain ⟨call, hcall, hresult⟩ := get?_published_of_keptLast hl hf hs hremoved hb hg
    obtain ⟨call', hcall', hresult'⟩ := hkept _ last hlast
    rw [hpartition, hcall] at hcall'
    obtain rfl := Option.some.inj hcall'
    exact hresult.symm.trans hresult'
  · intro hund signature last hlast
    rw [hpartition]
    by_cases hanew : 0 < retractedBy s.strictness result r ∧ ∃ g r', s.frames.Beneath f g ∧
        s.frames.Keeps g r' ∧ r'.ledger.phase = .settled ∧ r'.signature = signature
    · obtain ⟨hremoved, g, r', hb, hg, hs', rfl⟩ := hanew
      obtain ⟨hbasic, hvalue, huncaught⟩ := retractedBy_pos_iff_basic.1 hremoved
      obtain ⟨k, r'', hgk, hlastKept, hsig⟩ := hl.exists_keptLast hg hs'
      have hbk : s.frames.Beneath f k := by
        rcases hgk with rfl | hgk
        · exact hb
        · exact hb.trans hgk
      obtain ⟨call, hcall, hresult⟩ := get?_published_of_keptLast hl hf hs hremoved hbk hlastKept
      rw [hsig] at hcall
      exact ⟨call, hcall, hresult.trans
        (hund hbasic hvalue r hf hs huncaught k r'' hbk hlastKept last (hsig ▸ hlast))⟩
    · rw [get?_published_of_none hl hf hs fun hremoved g r' hb hg hs' hsig =>
        hanew ⟨hremoved, g, r', hb, hg, hs', hsig⟩]
      have hsame := Frame.sameCall_published s.strictness result
      have hself := hf.update hsame (r.aborted_published s.strictness result)
      by_cases hsig : r.signature = signature
      · subst hsig
        rw [resultsAfter_of_some ((hgiven _).trans (if_pos ⟨hf.isEntry, rfl, hs⟩))] at hlast
        refine ⟨_, (hsame r).signature ▸ Frames.get?_keepIn_of_keeps hself, ?_⟩
        exact Option.some.inj hlast
      · rw [resultsAfter_of_none ((hgiven _).trans (if_neg fun h => hsig h.2.1))] at hlast
        rw [Frames.get?_keepIn_of_ne fun r' hr' hslot => hsig ?_]
        · exact hk signature last hlast
        · obtain rfl := Option.some.inj (hself.get?.symm.trans hr'.get?)
          exact (hsame r).signature.symm.trans (congrArg Cache.Slot.signature hslot).symm

theorem keptWith_after_iff (hk : s.KeptWith results) (hl : s.frames.Linked) (op : Operation) :
    (s.after op).KeptWith (s.resultsAfter results op) ↔
      s.Undisturbed (s.resultsAfter results op) op := by
  cases op with
  | finishFrame f result body => exact iff_of_true (hk.after_finishFrame f result body) trivial
  | publishResult f result =>
    by_cases hf : ∃ r, s.frames.Keeps f r ∧ r.ledger.phase = .settled
    · obtain ⟨r, hf, hs⟩ := hf
      exact hk.after_publishResult_iff hl hf hs
    · refine iff_of_true (hk.after_publishResult_of_not hl fun r hr hs => hf ⟨r, hr, hs⟩) ?_
      exact fun _ _ r hr hs => absurd ⟨r, hr, hs⟩ hf
  | _ => exact iff_of_true (hk.after_other hl (by simp) (by simp)) trivial

/-! ## Whole runs -/

/-- At every point of a run the calls are kept with the results last given for them, exactly if
every operation of the run leaves them undisturbed. -/
theorem last_results_kept_iff (config : Config) (cache : Cache) (ops : List Operation) :
    let start : Analysis := { config, cache }
    (∀ done, done <+: ops → (start.run done).KeptWith (start.lastGiven? done)) ↔
      ∀ done op, done ++ [op] <+: ops →
        (start.run done).Undisturbed (start.lastGiven? (done ++ [op])) op := by
  intro start
  have hl : ∀ done, (start.run done).frames.Linked :=
    fun done => ((WellFormed.start config cache).run done).linked
  have hstep : ∀ done op, (start.run done).KeptWith (start.lastGiven? done) →
      ((start.run (done ++ [op])).KeptWith (start.lastGiven? (done ++ [op])) ↔
        (start.run done).Undisturbed (start.lastGiven? (done ++ [op])) op) := by
    intro done op hk
    rw [lastGiven?_concat, run_append]
    exact keptWith_after_iff hk (hl done) op
  constructor
  · intro hkept done op hdone
    exact (hstep done op (hkept done ((List.prefix_append ..).trans hdone))).1 (hkept _ hdone)
  · intro hund done
    induction done using List.reverseRecOn with
    | nil => exact fun _ _ _ hlast => nomatch hlast
    | append_singleton done op ih =>
      intro hdone
      exact (hstep done op (ih ((List.prefix_append ..).trans hdone))).2 (hund done op hdone)

/-- A call with a callee that raises is finished with a value and restored, and published there to
have none. -/
def refinedCopy : List Operation :=
  [.enterEntry ⟨"main", []⟩,
   .enterCall ⟨"outer", []⟩ ⟨⟨0⟩, ⟨"m.jl", 1⟩⟩,
   .enterCall ⟨"inner", []⟩ ⟨⟨1⟩, ⟨"m.jl", 10⟩⟩,
   .finishFrame ⟨2⟩ .bottom [.raise ⟨"m.jl", 20⟩ "error(x)"],
   .finishFrame ⟨1⟩ .any [],
   .enterCall ⟨"outer", []⟩ ⟨⟨0⟩, ⟨"m.jl", 2⟩⟩,
   .publishResult ⟨3⟩ .bottom]

/-- A value that is then published for the callee brings back the earlier result of the caller. -/
theorem last_results_kept_iff_refinedCopy :
    let start : Analysis := { config := {}, cache := {} }
    let ops := refinedCopy ++ [.publishResult ⟨2⟩ .any]
    (∀ done, done <+: refinedCopy → (start.run done).KeptWith (start.lastGiven? done)) ∧
      ¬(start.run refinedCopy).Undisturbed (start.lastGiven? ops) (.publishResult ⟨2⟩ .any) ∧
      start.lastGiven? ops ⟨"outer", []⟩ = some .bottom ∧
      ∃ call, (start.run ops).cache.get? ⟨start.partition, ⟨"outer", []⟩⟩ = some call ∧
        call.result = .any := by
  intro start ops
  have hbefore : ∀ done op, done ++ [op] <+: refinedCopy →
      (start.run done).Undisturbed (start.lastGiven? (done ++ [op])) op := by
    intro done op hdone
    have hop : op ∈ refinedCopy := hdone.subset (by simp)
    simp only [refinedCopy, List.mem_cons, List.not_mem_nil, or_false] at hop
    rcases hop with rfl | rfl | rfl | rfl | rfl | rfl | rfl
    case inr.inr.inr.inr.inr.inr => exact fun _ hvalue => nomatch hvalue
    all_goals trivial
  have hlast : start.lastGiven? ops ⟨"outer", []⟩ = some .bottom := by decide
  have hcall : ((start.run ops).cache.get? ⟨start.partition, ⟨"outer", []⟩⟩).map (·.result) =
      some .any := by decide
  refine ⟨(last_results_kept_iff {} {} refinedCopy).2 hbefore, fun hund => ?_, hlast,
    Option.map_eq_some_iff.1 hcall⟩
  have hkept := (last_results_kept_iff {} {} ops).2 fun done op hdone => by
    rcases List.prefix_concat_iff.1 hdone with heq | hdone
    · obtain ⟨rfl, hop⟩ := List.append_inj' heq rfl
      cases hop
      exact hund
    · exact hbefore done op hdone
  obtain ⟨call, hget, hresult⟩ := hkept ops (List.prefix_refl _) _ _ hlast
  have hbottom : ((start.run ops).cache.get? ⟨start.partition, ⟨"outer", []⟩⟩).map (·.result) =
      some .bottom := Option.map_eq_some_iff.2 ⟨call, hget, hresult⟩
  exact absurd (hcall.symm.trans hbottom) (by decide)

end Analysis

end FrameAudit
