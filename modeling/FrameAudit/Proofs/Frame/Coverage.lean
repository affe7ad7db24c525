import FrameAudit.Proofs.Frame.Changes
import FrameAudit.Proofs.Policy.Judging
import FrameAudit.Proofs.Report.Coverage

/-! # Frames that cover others

The frame of a call under the sound policy covers the one under the basic policy: they agree in all
but the reports, and those of the one cover those of the other. Whatever is done to both frames
alike keeps that. -/

namespace FrameAudit

namespace Ledger

/-- A report of a kind that is not there yet is recorded. -/
theorem mem_noted_self {reports : List Report} {ρ : Report}
    (h : ∀ old ∈ reports, old.kind ≠ ρ.kind) : ρ ∈ noted reports ρ := by
  have hnew : ¬∃ old ∈ reports, old.Duplicates ρ := fun ⟨old, hold, hdup⟩ => h old hold hdup.1
  simp [noted, hnew]

end Ledger

/-- The finished call under the sound policy covers the one under the basic policy. -/
structure CachedCall.CoveredBy (call call' : CachedCall) : Prop where
  result : call'.result = call.result
  reports : ∀ ρ ∈ call.reports, ρ.CoveredIn call'.reports

namespace Frame

/-- The sound policy retracts nothing and reports every raise that is not serious. -/
theorem uncaughtObserved_sound (callers : CallPath) (result : Ty) (body : List Instruction)
    (r : Frame) : r.uncaughtObserved .sound callers result body =
      match unreportedRaises r.ledger.seriousPositions body with
      | [] => r
      | first :: rest =>
        r.note (r.reportAt callers first.position (.uncaughtException (first :: rest))) := by
  unfold Frame.uncaughtObserved
  cases unreportedRaises r.ledger.seriousPositions body with
  | nil => rfl
  | cons first rest => rfl

structure CoveredBy (r r' : Frame) : Prop where
  sameCall : r.SameCall r'
  result : r'.result = r.result
  aborted : r'.aborted = r.aborted
  phase : r'.ledger.phase = r.ledger.phase
  reports : ∀ ρ ∈ r.ledger.reports, ρ.CoveredIn r'.ledger.reports

variable {r r' : Frame} {callers : CallPath} {position : Position} {os : List Observation}
  {d d' : Finding} {ρ σ : Report} {body : List Instruction}

theorem SameCall.view_eq (h : r.SameCall r') : r'.view = r.view := by
  rw [view, view, h.signature, h.isEntry]

namespace CoveredBy

theorem of_nil (h : r.ledger.reports = []) : r.CoveredBy r :=
  ⟨.refl r, rfl, rfl, rfl, fun ρ hρ => by simp [h] at hρ⟩

/-- Nothing but the reports changes. -/
theorem of_reports (h : r.CoveredBy r') {reports reports' : List Report}
    (hreports : ∀ ρ ∈ reports, ρ.CoveredIn reports') :
    CoveredBy { r with ledger.reports := reports } { r' with ledger.reports := reports' } :=
  ⟨⟨h.sameCall.1, h.sameCall.2, h.sameCall.3, h.sameCall.4⟩, h.result, h.aborted, h.phase, hreports⟩

theorem note_right (h : r.CoveredBy r') (σ : Report) : r.CoveredBy (r'.note σ) :=
  h.of_reports fun ρ hρ => (h.reports ρ hρ).mono fun _ => Ledger.mem_noted_of_mem

theorem note (h : r.CoveredBy r') (hρ : ρ.CoveredIn (r'.note σ).ledger.reports) :
    (r.note ρ).CoveredBy (r'.note σ) :=
  h.of_reports (forall_mem_note (h.note_right σ).reports hρ)

/-- Findings of one kind are noted at one statement. -/
theorem note_reportAt (h : r.CoveredBy r') (hne : d.kind ≠ .uncaughtException)
    (hkind : d'.kind = d.kind) : (r.note (r.reportAt callers position d)).CoveredBy
      (r'.note (r'.reportAt callers position d')) := by
  refine h.note (.of_kind hne ?_)
  obtain ⟨σ, hσ, hdup⟩ := Ledger.exists_duplicates_noted r'.ledger.reports
    (r'.reportAt callers position d')
  refine ⟨σ, hσ, hdup.1.trans hkind, hdup.2.1.trans ?_⟩
  rw [h.sameCall.reportAt_eq]
  rfl

theorem observedFirst (h : r.CoveredBy r')
    (hfound : ∀ d, os.findSome? (Strictness.basic.judge r.view) = some d →
      d.kind ≠ .uncaughtException ∧
        ∃ d', os.findSome? (Strictness.sound.judge r.view) = some d' ∧ d'.kind = d.kind) :
    (r.observedFirst .basic callers position os).CoveredBy
      (r'.observedFirst .sound callers position os) := by
  unfold Frame.observedFirst
  rw [h.sameCall.view_eq]
  cases hb : os.findSome? (Strictness.basic.judge r.view) with
  | none =>
    cases os.findSome? (Strictness.sound.judge r.view) with
    | none => exact h
    | some d' => exact h.note_right _
  | some d =>
    obtain ⟨hne, d', hd', hkind⟩ := hfound d hb
    rw [hd']
    exact h.note_reportAt hne hkind

theorem observed (h : r.CoveredBy r') {o : Observation} (hc : o.Canonical)
    (hne : o.kind ≠ .uncaughtException) : (r.observed .basic callers position o).CoveredBy
      (r'.observed .sound callers position o) := by
  have hfirst : ∀ strictness (r : Frame), r.observed strictness callers position o =
      r.observedFirst strictness callers position [o] := by
    intro strictness r
    unfold Frame.observed Frame.observedFirst
    cases hj : strictness.judge r.view o <;> simp [hj]
  rw [hfirst, hfirst]
  refine h.observedFirst fun d hd => ?_
  have hd : Strictness.basic.judge r.view o = some d := by
    cases hj : Strictness.basic.judge r.view o <;> simp_all
  obtain ⟨d', hd', hwithin⟩ := Strictness.judge_within hc hd
  refine ⟨?_, d', by simp [hd'], hwithin.kind_eq⟩
  rwa [Strictness.kind_of_judge hd]

theorem undefinedObserved (h : r.CoveredBy r') :
    (r.undefinedObserved .basic callers body).CoveredBy
      (r'.undefinedObserved .sound callers body) := by
  unfold Frame.undefinedObserved
  induction undefChecks body generalizing r r' with
  | nil => exact h
  | cons check checks ih => exact ih (h.observed trivial (by simp [Observation.kind]))

theorem failed (h : r.CoveredBy r') (error : ErrorValue) :
    (r.failed callers position error).CoveredBy (r'.failed callers position error) := by
  have hnote : (r.note (r.reportAt callers position (.generatorError error))).CoveredBy
      (r'.note (r'.reportAt callers position (.generatorError error))) :=
    h.note_reportAt (by simp [Finding.kind]) rfl
  have hsame := (sameCall_failed callers position error r).symm.trans
    (h.sameCall.trans (sameCall_failed callers position error r'))
  exact ⟨hsame, rfl, rfl, rfl, hnote.reports⟩

/-- A raise that only the basic policy lists as uncaught is reported as serious by the sound one. -/
theorem uncaughtObserved (callers : CallPath) (result : Ty) (body : List Instruction)
    (h : r.CoveredBy r')
    (hnone : ∀ σ ∈ r'.ledger.reports, σ.kind ≠ .uncaughtException)
    (hserious : ∀ σ ∈ r'.ledger.reports, ∀ error place,
      σ.finding = .seriousException error place → σ.path = callers ++ [⟨r'.signature, place⟩]) :
    (r.uncaughtObserved .basic callers result body).CoveredBy
      (r'.uncaughtObserved .sound callers result body) := by
  obtain ⟨_, heq⟩ := uncaughtObserved_eq .basic callers result body r
  obtain ⟨_, heq'⟩ := uncaughtObserved_eq .sound callers result body r'
  have hold : r'.ledger.reports ⊆
      (r'.uncaughtObserved .sound callers result body).ledger.reports := by
    rw [uncaughtObserved_sound]
    split
    · exact List.Subset.refl _
    · exact fun _ => Ledger.mem_noted_of_mem
  have hnew : ∀ {first rest}, unreportedRaises r'.ledger.seriousPositions body = first :: rest →
      r'.reportAt callers first.position (.uncaughtException (first :: rest)) ∈
        (r'.uncaughtObserved .sound callers result body).ledger.reports := by
    intro first rest hraises
    rw [uncaughtObserved_sound, hraises]
    exact Ledger.mem_noted_self hnone
  have hcovered : ∀ ρ ∈ (r.uncaughtObserved .basic callers result body).ledger.reports,
      ρ.CoveredIn (r'.uncaughtObserved .sound callers result body).ledger.reports := by
    refine forall_mem_uncaughtObserved (fun ρ hρ => (h.reports ρ hρ).mono hold) fun position _ => ?_
    refine ⟨fun hkind => absurd rfl hkind, ?_⟩
    rintro raises ⟨⟩ site hsite
    obtain ⟨hmem, -⟩ := mem_unreportedRaises.1 hsite
    by_cases hclaimed : site.position ∈ r'.ledger.seriousPositions
    · obtain ⟨σ, hσ, error, hfinding⟩ := Ledger.mem_seriousPositions.1 hclaimed
      refine .inr ⟨σ, hold hσ, error, hfinding, ?_⟩
      rw [hserious σ hσ error _ hfinding, h.sameCall.signature, reportAt,
        CallPath.endingAt_concat]
    · have hlisted := mem_unreportedRaises.2 ⟨hmem, hclaimed⟩
      obtain ⟨first, rest, hraises⟩ := List.exists_cons_of_ne_nil (List.ne_nil_of_mem hlisted)
      refine .inl ⟨_, hnew hraises, _, first.position, rfl, hraises ▸ hlisted, ?_⟩
      rw [reportAt, reportAt, CallPath.endingAt_concat, h.sameCall.signature]
  rw [heq, heq'] at hcovered ⊢
  exact h.of_reports hcovered

theorem finished (callers : CallPath) (result : Ty) (body : List Instruction) (h : r.CoveredBy r')
    (hnone : ∀ σ ∈ r'.ledger.reports, σ.kind ≠ .uncaughtException)
    (hserious : ∀ σ ∈ r'.ledger.reports, ∀ error place,
      σ.finding = .seriousException error place → σ.path = callers ++ [⟨r'.signature, place⟩]) :
    (r.finished .basic callers result body).CoveredBy
      (r'.finished .sound callers result body) := by
  have hresult : CoveredBy { r with result } { r' with result } :=
    ⟨⟨h.sameCall.1, h.sameCall.2, h.sameCall.3, h.sameCall.4⟩, rfl, h.aborted, h.phase, h.reports⟩
  have hundef : (Frame.undefinedObserved .basic callers body { r with result }).CoveredBy
      (Frame.undefinedObserved .sound callers body { r' with result }) := hresult.undefinedObserved
  obtain ⟨_, heq⟩ := undefinedObserved_eq .sound callers body { r' with result }
  have huncaught := hundef.uncaughtObserved callers result body
    (forall_mem_undefinedObserved hnone fun _ _ => by simp [reportAt, Report.kind, Finding.kind])
    (forall_mem_undefinedObserved (by rw [heq]; exact hserious) fun _ _ _ _ hf => by cases hf)
  exact ⟨⟨huncaught.sameCall.1, huncaught.sameCall.2, huncaught.sameCall.3, huncaught.sameCall.4⟩,
    huncaught.result, huncaught.aborted, rfl, huncaught.reports⟩

theorem restored {call call' : CachedCall} (h : call.CoveredBy call') (hr : r.ledger.reports = [])
    (hne : ∀ ρ ∈ call.reports, ρ.path ≠ [])
    (hagree : ∀ σ ∈ call'.reports, ∀ τ ∈ call'.reports, σ.kind = .uncaughtException →
      τ.kind = .uncaughtException → σ.path = τ.path → σ.finding = τ.finding) :
    (r.restored callers call).CoveredBy (r.restored callers call') := by
  refine ⟨⟨rfl, rfl, rfl, rfl⟩, h.result, rfl, rfl, forall_mem_restored hr fun ρ hρ => ?_⟩
  have hcovered := (h.reports ρ hρ).rebase_noted callers (hne ρ hρ) hagree
  rwa [← hr] at hcovered

theorem frozen (h : r.CoveredBy r') : r.frozen.CoveredBy r'.frozen :=
  ⟨⟨h.sameCall.1, h.sameCall.2, h.sameCall.3, h.sameCall.4⟩, h.result, h.aborted, rfl, h.reports⟩

end CoveredBy

end Frame

end FrameAudit
