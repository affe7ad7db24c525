import FrameAudit.Proofs.Ledger.Noting

/-! # Reports that cover others

A list of reports covers a report if one of them has its kind and path. An uncaught raise is covered
in another way, one raise at a time: a raise that is listed may be listed at another statement of
the same call, or be reported as serious itself. Coverage does not depend on where paths are seen
from, and is not lost when reports that say the same are noted once. -/

namespace FrameAudit

namespace CallPath

/-- The path to another statement of the call that the path leads to. -/
def endingAt (path : CallPath) (position : Position) : CallPath :=
  path.dropLast ++ (path.getLast?.map fun step => { step with position }).toList

variable {path : CallPath} {position : Position}

@[simp]
theorem endingAt_concat (callers : CallPath) (step : PathStep) (position : Position) :
    endingAt (callers ++ [step]) position = callers ++ [{ step with position }] := by
  simp [endingAt]

theorem endingAt_append (callers : CallPath) (position : Position) (hne : path ≠ []) :
    endingAt (callers ++ path) position = callers ++ path.endingAt position := by
  obtain rfl | ⟨steps, last, rfl⟩ := List.eq_nil_or_concat' path
  · exact absurd rfl hne
  · rw [← List.append_assoc, endingAt_concat, endingAt_concat, List.append_assoc]

theorem endingAt_drop {n : Nat} (position : Position) (h : n < path.length) :
    endingAt (path.drop n) position = (path.endingAt position).drop n := by
  obtain rfl | ⟨steps, last, rfl⟩ := List.eq_nil_or_concat' path
  · simp at h
  · have hn : n ≤ steps.length := by simpa [Nat.lt_succ_iff] using h
    rw [List.drop_append_of_le_length hn, endingAt_concat, endingAt_concat,
      List.drop_append_of_le_length hn]

end CallPath

namespace Report

variable {ρ σ : Report} {reports reports' : List Report}

/-- The reports account for a raise in the call that the path leads to: the raise is listed at some
statement of the call, or its own statement is reported as serious. -/
def RaiseCovered (reports : List Report) (path : CallPath) (site : RaiseSite) : Prop :=
  (∃ σ ∈ reports, ∃ raises position, σ.finding = .uncaughtException raises ∧ site ∈ raises ∧
    σ.path = path.endingAt position) ∨
  ∃ σ ∈ reports, ∃ error, σ.finding = .seriousException error site.position ∧
    σ.path = path.endingAt site.position

structure CoveredIn (ρ : Report) (reports : List Report) : Prop where
  other : ρ.kind ≠ .uncaughtException → ∃ σ ∈ reports, σ.kind = ρ.kind ∧ σ.path = ρ.path
  raises : ∀ raises, ρ.finding = .uncaughtException raises →
    ∀ site ∈ raises, RaiseCovered reports ρ.path site

theorem CoveredIn.of_kind (hkind : ρ.kind ≠ .uncaughtException)
    (h : ∃ σ ∈ reports, σ.kind = ρ.kind ∧ σ.path = ρ.path) : ρ.CoveredIn reports where
  other _ := h
  raises raises hf := absurd (by rw [kind, hf]; rfl) hkind

/-- Coverage along a change of all paths. Of the covering reports, those that say something about
raises have to keep what they say. -/
theorem CoveredIn.map {g : CallPath → CallPath} (h : ρ.CoveredIn reports)
    (hg : ∀ position, (g ρ.path).endingAt position = g (ρ.path.endingAt position))
    (hreports : ∀ σ ∈ reports, ∃ σ' ∈ reports', σ'.kind = σ.kind ∧ σ'.path = g σ.path ∧
      (σ.kind = .uncaughtException ∨ σ.kind = .seriousException → σ'.finding = σ.finding)) :
    CoveredIn ⟨g ρ.path, ρ.finding⟩ reports' where
  other hkind := by
    obtain ⟨σ, hσ, hk, hp⟩ := h.other hkind
    obtain ⟨σ', hσ', hk', hp', -⟩ := hreports σ hσ
    exact ⟨σ', hσ', hk'.trans hk, by rw [hp', hp]⟩
  raises raises hf site hsite := by
    rcases h.raises raises hf site hsite with ⟨σ, hσ, listed, position, hfinding, hmem, hp⟩ |
      ⟨σ, hσ, error, hfinding, hp⟩
    · obtain ⟨σ', hσ', -, hp', hsame⟩ := hreports σ hσ
      have hsame := hsame (.inl (by rw [kind, hfinding]; rfl))
      exact .inl ⟨σ', hσ', listed, position, hsame.trans hfinding, hmem, by rw [hp', hp, hg]⟩
    · obtain ⟨σ', hσ', -, hp', hsame⟩ := hreports σ hσ
      have hsame := hsame (.inr (by rw [kind, hfinding]; rfl))
      exact .inr ⟨σ', hσ', error, hsame.trans hfinding, by rw [hp', hp, hg]⟩

theorem CoveredIn.mono (h : ρ.CoveredIn reports) (hsub : reports ⊆ reports') :
    ρ.CoveredIn reports' :=
  h.map (g := id) (fun _ => rfl) fun σ hσ => ⟨σ, hsub hσ, rfl, rfl, fun _ => rfl⟩

theorem CoveredIn.below {depth : Nat} (h : ρ.CoveredIn reports) (hdepth : depth < ρ.path.length)
    (hsub : ∀ σ ∈ reports, σ.below depth ∈ reports') : (ρ.below depth).CoveredIn reports' :=
  h.map (g := (·.below depth)) (fun position => CallPath.endingAt_drop position hdepth)
    fun σ hσ => ⟨σ.below depth, hsub σ hσ, rfl, rfl, fun _ => rfl⟩

/-- Noting reports once does not lose coverage, if no two uncaught raises at one path list different
raises. -/
theorem CoveredIn.rebase_noted (callers : CallPath) (h : ρ.CoveredIn reports) (hne : ρ.path ≠ [])
    (hagree : ∀ σ ∈ reports, ∀ τ ∈ reports, σ.kind = .uncaughtException →
      τ.kind = .uncaughtException → σ.path = τ.path → σ.finding = τ.finding) :
    (ρ.rebase callers).CoveredIn ((reports.map (·.rebase callers)).foldl Ledger.noted []) := by
  refine h.map (g := (callers ++ ·)) (fun position => CallPath.endingAt_append _ position hne) ?_
  intro σ hσ
  obtain ⟨σ', hσ', hdup⟩ :=
    Ledger.exists_duplicates_foldl_noted [] (List.mem_map_of_mem (f := (·.rebase callers)) hσ)
  refine ⟨σ', hσ', hdup.1, hdup.2.1, ?_⟩
  rintro (hkind | hkind)
  · -- the report that is noted comes from the list, too
    have hmem := (Ledger.mem_foldl_noted_subset hσ').resolve_left List.not_mem_nil
    obtain ⟨τ, hτ, rfl⟩ := List.mem_map.1 hmem
    have hpath : τ.path = σ.path := List.append_cancel_left hdup.2.1
    exact hagree τ hτ σ hσ (hdup.1.trans hkind) hkind hpath
  · have hkind' : σ'.kind = .seriousException := hdup.1.trans hkind
    exact hdup.2.2 (by rw [hkind']; rfl)

end Report

end FrameAudit
