import FrameAudit.Proofs.Session.AnalysedOnce
import FrameAudit.Proofs.Session.UncaughtRaises
import Mathlib.Data.List.Induction

/-! # Which uncaught raises a value retracts

Under the basic policy, publishing a value for a frame takes the uncaught raises out of its ledger
and no other report of any frame. In a frame that was analysed these are the raises of its own call.
A frame that was filled from the cache also holds those of the calls beneath it, and these are
retracted as well. -/

namespace FrameAudit

instance (ρ : Report) (length : Nat) : Decidable (ρ.UncaughtAt length) := by
  unfold Report.UncaughtAt
  infer_instance

/-- All reports of the frame are about its own call. -/
def Frame.OnlyOwn (r : Frame) : Prop := ∀ ρ ∈ r.ledger.reports, ρ.path.length = r.depth + 1

theorem Frames.Linked.length_reportAt {frames : Frames} {f : FrameId} {r : Frame}
    (hl : frames.Linked) (hr : frames.get? f = some r) (position : Position) (finding : Finding) :
    (r.reportAt (frames.callerPath f) position finding).path.length = r.depth + 1 := by
  rw [Frame.reportAt, List.length_append, hl.length_callerPath hr, List.length_singleton]

namespace Analysis

open Frames (get?_update_cases get?_concat)

variable {s s' a : Analysis} {f : FrameId} {r : Frame} {op : Operation} {ops : List Operation}
  {signature : Signature} {site : CallSite} {entered : Entered} {t : Nat} {result : Ty}
  {P Q : Report → Prop} {res : EStateM.Result Fault Analysis Answer}

/-! ## Frames that were not filled from the cache -/

/-- The frame was filled from the cache by one of the operations. -/
def RestoredBy (a : Analysis) (ops : List Operation) (f : FrameId) : Prop :=
  ∃ t signature result, a.EntersAt ops t signature (.cached f result)

theorem EntersAt.append (h : a.EntersAt ops t signature entered) (later : List Operation) :
    a.EntersAt (ops ++ later) t signature entered := by
  have ht := h.lt_length
  obtain ⟨site, s', hop, hstep⟩ := h
  refine ⟨site, s', ?_, ?_⟩
  · rw [List.getElem?_append_left ht, hop]
  · rw [List.take_append_of_le_length (Nat.le_of_lt ht), hstep]

theorem entersAt_last
    (h : (a.run ops).step (.enterCall signature site) = .ok (.entered entered) s') :
    a.EntersAt (ops ++ [.enterCall signature site]) ops.length signature entered :=
  ⟨site, s', by simp, by rw [List.take_left, h]⟩

/-- The reports of a frame after an operation are its own if they were before, or if it is new,
unless it was filled from the cache. -/
theorem Step.onlyOwn_cases (hstep : Step s op res) (hl : s.frames.Linked)
    (hr : (leaves res).frames.get? f = some r) :
    (∃ r₀, s.frames.get? f = some r₀ ∧ (r₀.OnlyOwn → r.OnlyOwn)) ∨ r.OnlyOwn ∨
      ∃ signature site result s', op = .enterCall signature site ∧
        res = .ok (.entered (.cached f result)) s' := by
  cases hstep with
  | failed | answered => exact .inl ⟨r, hr, id⟩
  | noted _ _ g r₀ position finding _ _ hg _ _ _ =>
    rcases get?_update_cases hg hr with ⟨rfl, rfl⟩ | ⟨-, hr⟩
    · exact .inl ⟨r₀, hg, fun h => Frame.forall_mem_note h (hl.length_reportAt hg ..)⟩
    · exact .inl ⟨r, hr, id⟩
  | entry | analyze =>
    rcases get?_concat hr with ⟨-, rfl⟩ | hr
    · exact .inr (.inl fun ρ hρ => absurd hρ List.not_mem_nil)
    · exact .inl ⟨r, hr, id⟩
  | restored signature site c call _ =>
    rcases get?_concat hr with ⟨hf, -⟩ | hr
    · obtain ⟨i⟩ := f
      cases hf
      exact .inr (.inr ⟨signature, site, call.result, _, rfl, rfl⟩)
    · exact .inl ⟨r, hr, id⟩
  | aborted g r₀ position error _ _ hg _ _ =>
    rcases get?_update_cases hg hr with ⟨rfl, rfl⟩ | ⟨-, hr⟩
    · exact .inl ⟨r₀, hg, fun h => Frame.forall_mem_note h (hl.length_reportAt hg ..)⟩
    · exact .inl ⟨r, hr, id⟩
  | finished g r₀ result body _ hg _ _ =>
    rcases get?_update_cases hg hr with ⟨rfl, rfl⟩ | ⟨-, hr⟩
    · have hsame := r₀.sameCall_finished s.strictness (s.frames.callerPath f) result body
      refine .inl ⟨r₀, hg, fun h => ?_⟩
      rw [Frame.OnlyOwn, hsame.depth]
      exact Frame.forall_mem_finished h (fun _ _ => hl.length_reportAt hg ..)
        fun _ _ => hl.length_reportAt hg ..
    · exact .inl ⟨r, hr, id⟩
  | published g r₀ result _ hg _ _ =>
    rcases get?_update_cases hg hr with ⟨rfl, rfl⟩ | ⟨-, hr⟩
    · have hsame := r₀.sameCall_published s.strictness result
      refine .inl ⟨r₀, hg, fun h => ?_⟩
      rw [Frame.OnlyOwn, hsame.depth]
      exact Frame.forall_mem_retracted h
    · exact .inl ⟨r, hr, id⟩
  | frozen =>
    rw [leaves, get?_freeze, Option.map_eq_some_iff] at hr
    obtain ⟨r₀, hr₀, rfl⟩ := hr
    exact .inl ⟨r₀, hr₀, id⟩

theorem onlyOwn_run (config : Config) (cache : Cache) (ops : List Operation) :
    let a : Analysis := { config, cache }
    ∀ {f r}, (a.run ops).frames.get? f = some r → ¬a.RestoredBy ops f → r.OnlyOwn := by
  intro a
  have ha : WellFormed a := .start config cache
  induction ops using List.reverseRecOn with
  | nil => exact fun hr => by simp [run, a, Frames.get?] at hr
  | append_singleton ops op ih =>
    intro f r hr hnot
    have hl := (ha.run ops).linked
    have hstep := step_cases hl op
    rw [run_append] at hr
    change (after (a.run ops) op).frames.get? f = some r at hr
    rw [after_eq] at hr
    rcases hstep.onlyOwn_cases hl hr with ⟨r₀, hr₀, h⟩ | h | ⟨signature, site, result, s', rfl, h⟩
    · -- a frame that was not restored in the end was not restored before
      refine h (ih hr₀ ?_)
      rintro ⟨t, signature, result, hentered⟩
      exact hnot ⟨t, signature, result, hentered.append [op]⟩
    · exact h
    · exact absurd ⟨_, _, _, entersAt_last h⟩ hnot

/-! ## What is retracted -/

/-- Publishing a result for a frame succeeds and takes exactly the reports with a property out of
its ledger. The other reports of all frames are left in place, and the answer is the number of those
that are gone. -/
def Retracts (s : Analysis) (f : FrameId) (r : Frame) (result : Ty) (P : Report → Prop)
    [DecidablePred P] : Prop :=
  ∃ s' r', s.step (.publishResult f result) =
      .ok (.retracted (r.ledger.reports.countP fun ρ => P ρ)) s' ∧
    s'.frames.get? f = some r' ∧ r'.ledger.reports = r.ledger.reports.filter (fun ρ => ¬P ρ) ∧
    ∀ g, g ≠ f → s'.frames.get? g = s.frames.get? g

variable [DecidablePred P] [DecidablePred Q]

theorem Retracts.congr (h : s.Retracts f r result P) (hPQ : ∀ ρ ∈ r.ledger.reports, P ρ ↔ Q ρ) :
    s.Retracts f r result Q := by
  obtain ⟨s', r', hstep, hr', hreports, hothers⟩ := h
  refine ⟨s', r', ?_, hr', ?_, hothers⟩
  · have hcount : r.ledger.reports.countP (fun ρ => P ρ) = r.ledger.reports.countP (fun ρ => Q ρ) :=
      List.countP_congr fun ρ hρ => by simpa using hPQ ρ hρ
    rw [hstep, hcount]
  · rw [hreports]
    exact List.filter_congr fun ρ hρ => decide_eq_decide.2 (not_congr (hPQ ρ hρ))

/-- What is retracted can be told from what is left. -/
theorem Retracts.iff (h : s.Retracts f r result P) (h' : s.Retracts f r result Q) :
    ∀ ρ ∈ r.ledger.reports, P ρ ↔ Q ρ := by
  obtain ⟨s₁, r₁, hstep₁, hr₁, hreports₁, -⟩ := h
  obtain ⟨s₂, r₂, hstep₂, hr₂, hreports₂, -⟩ := h'
  obtain ⟨-, rfl⟩ := EStateM.Result.ok.inj (hstep₁.symm.trans hstep₂)
  obtain rfl := Option.some.inj (hr₁.symm.trans hr₂)
  have hfilter := hreports₁.symm.trans hreports₂
  intro ρ hρ
  have hmem : ρ ∈ r.ledger.reports.filter (fun ρ => ¬P ρ) ↔
      ρ ∈ r.ledger.reports.filter (fun ρ => ¬Q ρ) := by rw [hfilter]
  simpa [List.mem_filter, hρ, not_iff_not] using hmem

/-- Under the basic policy a value retracts the uncaught raises. -/
theorem WellFormed.retracts_uncaught (h : WellFormed s) (hs : s.strictness = .basic)
    (hr : s.frames.get? f = some r) (ha : r.aborted = false) (hf : r.ledger.phase ≠ .frozen)
    (hb : result.isBottom = false) : s.Retracts f r result (·.kind = .uncaughtException) := by
  obtain ⟨events, hrun⟩ := Analysis.run_publishResult result h.linked hr ha hf
  have hcond : (s.strictness = .basic && !result.isBottom) = true := by simp [hs, hb]
  have hcount : retractedBy s.strictness result r =
      r.ledger.reports.countP (fun ρ => ρ.kind = .uncaughtException) := by
    have hlen := r.ledger.reports.length_eq_countP_add_countP
      (fun ρ => decide (ρ.kind = .uncaughtException))
    simp only [retractedBy, Frame.retracted, if_pos hcond, Frame.withoutUncaught,
      ← List.countP_eq_length_filter]
    simp only [decide_not, Bool.decide_eq_true] at hlen ⊢
    omega
  rw [hcount] at hrun
  refine ⟨_, _, step_ok rfl hrun, Frames.get?_update_self hr _, ?_,
    fun g hg => Frames.get?_update_of_ne hg _⟩
  simp only [Frame.published, Frame.retracted, if_pos hcond, Frame.withoutUncaught, ne_eq]

/-- Under the basic policy a value retracts all uncaught raises in the ledger of the frame and
nothing else. They are the frame's own exactly if the ledger holds no other uncaught raises, as is
the case in every frame that was not filled from the cache. -/
theorem retracts_own_iff (config : Config) (cache : Cache) (ops : List Operation)
    (hs : config.policy.strictness = .basic) :
    let start : Analysis := { config, cache }
    let s := start.run ops
    ∀ f r result, s.frames.get? f = some r → r.aborted = false → r.ledger.phase ≠ .frozen →
      result.isBottom = false →
      s.Retracts f r result (·.kind = .uncaughtException) ∧
      (s.Retracts f r result (·.UncaughtAt (r.depth + 1)) ↔
        ∀ ρ ∈ r.ledger.reports, ρ.kind = .uncaughtException → ρ.UncaughtAt (r.depth + 1)) ∧
      (¬start.RestoredBy ops f → s.Retracts f r result (·.UncaughtAt (r.depth + 1))) := by
  intro start s f r result hr ha hf hb
  have hstart : WellFormed start := .start config cache
  have hstrict : s.strictness = .basic := by rw [strictness, hstart.config_run ops, hs]
  have hall := (hstart.run ops).retracts_uncaught hstrict hr ha hf hb
  have hiff : s.Retracts f r result (·.UncaughtAt (r.depth + 1)) ↔
      ∀ ρ ∈ r.ledger.reports, ρ.kind = .uncaughtException → ρ.UncaughtAt (r.depth + 1) :=
    ⟨fun hown ρ hρ => (hall.iff hown ρ hρ).1, fun hown =>
      hall.congr fun ρ hρ => ⟨hown ρ hρ, And.left⟩⟩
  refine ⟨hall, hiff, fun hnot => hiff.2 fun ρ hρ hkind => ⟨hkind, ?_⟩⟩
  exact onlyOwn_run config cache ops hr hnot ρ hρ

/-- A call and its callee both raise, and the call is restored from the cache. -/
def restoredRaises : List Operation :=
  [.enterEntry ⟨"main", []⟩,
   .enterCall ⟨"outer", []⟩ ⟨⟨0⟩, ⟨"m.jl", 1⟩⟩,
   .enterCall ⟨"inner", []⟩ ⟨⟨1⟩, ⟨"m.jl", 10⟩⟩,
   .finishFrame ⟨2⟩ .bottom [.raise ⟨"m.jl", 20⟩ "error(x)"],
   .finishFrame ⟨1⟩ .bottom [.raise ⟨"m.jl", 11⟩ "error(x)"],
   .enterCall ⟨"outer", []⟩ ⟨⟨0⟩, ⟨"m.jl", 2⟩⟩]

/-- A value for the frame that was analysed retracts its own raise. For the restored one it also
retracts that of the callee. -/
theorem retracts_own_iff_restoredRaises :
    let start : Analysis := { config := {}, cache := {} }
    let s := start.run restoredRaises
    ∃ analysed restored, s.frames.get? ⟨1⟩ = some analysed ∧ s.frames.get? ⟨3⟩ = some restored ∧
      s.Retracts ⟨1⟩ analysed .any (·.UncaughtAt (analysed.depth + 1)) ∧
      start.RestoredBy restoredRaises ⟨3⟩ ∧
      s.Retracts ⟨3⟩ restored .any (·.kind = .uncaughtException) ∧
      ¬s.Retracts ⟨3⟩ restored .any (·.UncaughtAt (restored.depth + 1)) ∧
      (∃ s', s.step (.publishResult ⟨1⟩ .any) = .ok (.retracted 1) s') ∧
      ∃ s', s.step (.publishResult ⟨3⟩ .any) = .ok (.retracted 2) s' := by
  have hspec := retracts_own_iff {} {} restoredRaises rfl
  obtain ⟨-, hanalysed, -⟩ := hspec ⟨1⟩ _ .any rfl rfl (by decide) rfl
  obtain ⟨hall, hrestored, -⟩ := hspec ⟨3⟩ _ .any rfl rfl (by decide) rfl
  refine ⟨_, _, rfl, rfl, hanalysed.2 (by decide), ⟨5, _, _, _, _, rfl, rfl⟩, hall,
    fun hown => ?_, ⟨_, rfl⟩, _, rfl⟩
  exact absurd (hrestored.1 hown) (by decide)

end Analysis

end FrameAudit
