import FrameAudit.Ledger
import Mathlib.Data.List.Basic

/-! # Noting reports

Recording in a writable ledger as a function on its reports (`Ledger.noted`): a report is put at the
end unless one that says the same is there. Callers in front of all paths do not matter to it
(`Ledger.noted_map_rebase`), and reports of which no two different ones say the same are all kept
(`Ledger.mem_foldl_noted`). Of a list of reports, noting keeps the first of each kind of repetition
(`Ledger.distinct_eq_eraseDupsBy`). -/

namespace FrameAudit

namespace Report

theorem Duplicates.refl (r : Report) : r.Duplicates r := ⟨rfl, rfl, fun _ => rfl⟩

theorem Duplicates.symm {a b : Report} (h : a.Duplicates b) : b.Duplicates a :=
  ⟨h.1.symm, h.2.1.symm, fun hr => (h.2.2 (h.1 ▸ hr)).symm⟩

theorem Duplicates.trans {a b c : Report} (hab : a.Duplicates b) (hbc : b.Duplicates c) :
    a.Duplicates c :=
  ⟨hab.1.trans hbc.1, hab.2.1.trans hbc.2.1, fun hr => (hab.2.2 hr).trans (hbc.2.2 (hab.1 ▸ hr))⟩

theorem rebase_rebase (r : Report) (inner outer : CallPath) :
    (r.rebase inner).rebase outer = r.rebase (outer ++ inner) := by
  simp [rebase, CallPath.rebase]

theorem below_rebase (r : Report) (callers : CallPath) :
    (r.rebase callers).below callers.length = r := by
  simp [rebase, below, CallPath.rebase, CallPath.below]

theorem rebase_below {r : Report} {callers : CallPath} (h : callers <+: r.path) :
    (r.below callers.length).rebase callers = r := by
  obtain ⟨path, finding⟩ := r
  obtain ⟨inner, rfl⟩ := h
  simp [rebase, below, CallPath.rebase, CallPath.below]

theorem map_rebase_below {reports : List Report} {callers : CallPath}
    (h : ∀ ρ ∈ reports, callers <+: ρ.path) :
    (reports.map (·.below callers.length)).map (·.rebase callers) = reports := by
  rw [List.map_map]
  exact (List.map_congr_left fun ρ hρ => rebase_below (h ρ hρ)).trans (List.map_id _)

/-- Callers in front of both paths do not matter. -/
theorem rebase_duplicates_iff (a b : Report) (callers : CallPath) :
    (a.rebase callers).Duplicates (b.rebase callers) ↔ a.Duplicates b := by
  simp [Duplicates, rebase, CallPath.rebase, kind]

end Report

theorem eraseDupsBy_map {α β : Type} (f : α → β) (same : β → β → Bool) (as : List α) :
    (as.map f).eraseDupsBy same = (as.eraseDupsBy fun a b => same (f a) (f b)).map f := by
  have hloop : ∀ kept, List.eraseDupsBy.loop same (as.map f) (kept.map f) =
      (List.eraseDupsBy.loop (fun a b => same (f a) (f b)) as kept).map f := by
    induction as with
    | nil => simp [List.eraseDupsBy.loop]
    | cons a as ih =>
      intro kept
      simp only [List.map_cons, List.eraseDupsBy.loop, List.any_map]
      cases h : kept.any fun b => same (f a) (f b) with
      | true => simpa [Function.comp_def, h] using ih kept
      | false => simpa [Function.comp_def, h] using ih (a :: kept)
  exact hloop []

namespace Ledger

/-- Puts a report behind the others, unless one that says the same is there. -/
def noted (reports : List Report) (r : Report) : List Report :=
  if ∃ old ∈ reports, old.Duplicates r then reports else reports ++ [r]

/-- The first report of each class of reports that say the same. -/
def distinct (reports : List Report) : List Report := reports.foldl noted []

variable {reports rs : List Report} {r x : Report}

/-- Recording is noting. -/
theorem push_writable {l : Ledger} (h : l.phase = .writable) (r : Report) :
    l.push r = .ok (decide ¬l.Holds r, { l with reports := noted l.reports r }) := by
  by_cases hr : l.Holds r
  · have hr' : ∃ old ∈ l.reports, old.Duplicates r := hr
    cases l
    simp_all [push, noted]
  · have hr' : ¬∃ old ∈ l.reports, old.Duplicates r := hr
    simp only [push, h, hr, noted, hr', if_true, if_false, not_false_eq_true, decide_true]

theorem mem_noted (h : x ∈ noted reports r) : x ∈ reports ∨ x = r := by
  unfold noted at h
  split at h
  · exact .inl h
  · simpa using h

theorem mem_noted_of_mem (h : x ∈ reports) : x ∈ noted reports r := by
  unfold noted
  split
  · exact h
  · exact List.mem_append_left _ h

/-- Some report says the same after a report was noted. -/
theorem exists_duplicates_noted (reports : List Report) (r : Report) :
    ∃ old ∈ noted reports r, old.Duplicates r := by
  unfold noted
  split
  · assumption
  · exact ⟨r, by simp, .refl r⟩

theorem noted_map_rebase (reports : List Report) (r : Report) (callers : CallPath) :
    noted (reports.map (·.rebase callers)) (r.rebase callers) =
      (noted reports r).map (·.rebase callers) := by
  have h : (∃ old ∈ reports.map (·.rebase callers), old.Duplicates (r.rebase callers)) ↔
      ∃ old ∈ reports, old.Duplicates r := by
    simp [Report.rebase_duplicates_iff]
  unfold noted
  by_cases hr : ∃ old ∈ reports, old.Duplicates r
  · rw [if_pos hr, if_pos (h.2 hr)]
  · rw [if_neg hr, if_neg (mt h.1 hr)]
    simp

/-- No two reports say the same. -/
def Distinct (reports : List Report) : Prop := reports.Pairwise fun a b => ¬a.Duplicates b

theorem Distinct.noted (h : Distinct reports) (r : Report) : Distinct (noted reports r) := by
  unfold Ledger.noted
  split
  · exact h
  next hr =>
    refine List.pairwise_append.2 ⟨h, List.pairwise_singleton _ _, ?_⟩
    rintro a ha b hb hab
    obtain rfl := List.mem_singleton.1 hb
    exact hr ⟨a, ha, hab⟩

theorem Distinct.foldl_noted (h : Distinct reports) (rs : List Report) :
    Distinct (rs.foldl Ledger.noted reports) := by
  induction rs generalizing reports with
  | nil => exact h
  | cons r rs ih => exact ih (h.noted r)

/-- Among reports of which no two say the same, two that say the same are one. -/
theorem Distinct.eq_of_duplicates {a b : Report} (h : Distinct reports) (ha : a ∈ reports)
    (hb : b ∈ reports) (hab : a.Duplicates b) : a = b := by
  induction reports with
  | nil => simp at ha
  | cons x xs ih =>
    obtain ⟨hx, hxs⟩ := List.pairwise_cons.1 h
    rcases List.mem_cons.1 ha with rfl | ha <;> rcases List.mem_cons.1 hb with rfl | hb
    · rfl
    · exact (hx b hb hab).elim
    · exact (hx a ‹_› hab.symm).elim
    · exact ih hxs ha hb

theorem mem_foldl_noted_subset (h : x ∈ rs.foldl noted reports) : x ∈ reports ∨ x ∈ rs := by
  induction rs generalizing reports with
  | nil => exact .inl h
  | cons r rs ih =>
    rcases ih h with h | h
    · rcases mem_noted h with h | rfl
      · exact .inl h
      · exact .inr List.mem_cons_self
    · exact .inr (List.mem_cons_of_mem _ h)

theorem mem_foldl_noted_of_mem (h : x ∈ reports) (rs : List Report) :
    x ∈ rs.foldl noted reports := by
  induction rs generalizing reports with
  | nil => exact h
  | cons r rs ih => exact ih (mem_noted_of_mem h)

/-- For each of the reports, some report says the same after all of them were noted. -/
theorem exists_duplicates_foldl_noted (reports : List Report) (h : x ∈ rs) :
    ∃ old ∈ rs.foldl noted reports, old.Duplicates x := by
  induction rs generalizing reports with
  | nil => simp at h
  | cons r rs ih =>
    rcases List.mem_cons.1 h with rfl | h
    · obtain ⟨old, hold, hdup⟩ := exists_duplicates_noted reports x
      exact ⟨old, mem_foldl_noted_of_mem hold rs, hdup⟩
    · exact ih _ h

/-- Nothing is lost by noting reports of which no two different ones say the same. -/
theorem mem_foldl_noted
    (hd : ∀ a ∈ reports ++ rs, ∀ b ∈ reports ++ rs, a.Duplicates b → a = b) :
    x ∈ rs.foldl noted reports ↔ x ∈ reports ∨ x ∈ rs := by
  refine ⟨mem_foldl_noted_subset, ?_⟩
  induction rs generalizing reports with
  | nil => simp
  | cons r rs ih =>
    intro hx
    have hsub : ∀ a ∈ noted reports r ++ rs, a ∈ reports ++ r :: rs := by
      intro a ha
      rcases List.mem_append.1 ha with ha | ha
      · rcases mem_noted ha with ha | rfl <;> simp [*]
      · simp [ha]
    have hr : r ∈ noted reports r := by
      obtain ⟨old, hold, hdup⟩ := exists_duplicates_noted reports r
      have := hd old (hsub old (List.mem_append_left _ hold)) r (by simp) hdup
      exact this ▸ hold
    refine ih (fun a ha b hb => hd a (hsub a ha) b (hsub b hb)) ?_
    rcases hx with hx | hx
    · exact .inl (mem_noted_of_mem hx)
    · rcases List.mem_cons.1 hx with rfl | hx
      · exact .inl hr
      · exact .inr hx

/-- Reports that say nothing that is there are noted behind what is there. -/
theorem foldl_noted_append (h : ∀ old ∈ reports, ∀ r ∈ rs, ¬old.Duplicates r) :
    rs.foldl noted reports = reports ++ distinct rs := by
  have hfold : ∀ later, rs.foldl noted (reports ++ later) = reports ++ rs.foldl noted later := by
    induction rs with
    | nil => simp
    | cons r rs ih =>
      intro later
      have hr : (∃ old ∈ reports ++ later, old.Duplicates r) ↔ ∃ old ∈ later, old.Duplicates r := by
        refine ⟨fun ⟨old, hold, hdup⟩ => ?_, fun ⟨old, hold, hdup⟩ =>
          ⟨old, List.mem_append_right _ hold, hdup⟩⟩
        rcases List.mem_append.1 hold with hold | hold
        · exact (h old hold r List.mem_cons_self hdup).elim
        · exact ⟨old, hold, hdup⟩
      have hnoted : noted (reports ++ later) r = reports ++ noted later r := by
        unfold noted
        simp only [hr]
        split <;> simp
      rw [List.foldl_cons, List.foldl_cons, hnoted]
      exact ih (fun old hold r' hr' => h old hold r' (List.mem_cons_of_mem _ hr')) _
  simpa [distinct] using hfold []

theorem distinct_eq_eraseDupsBy (reports : List Report) :
    distinct reports = reports.eraseDupsBy fun a b => a.Duplicates b := by
  -- the reports kept so far are collected in reverse
  have hloop : ∀ kept, reports.foldl noted kept =
      List.eraseDupsBy.loop (fun a b => decide (a.Duplicates b)) reports kept.reverse := by
    induction reports with
    | nil => simp [List.eraseDupsBy.loop]
    | cons r reports ih =>
      intro kept
      have hany : (kept.reverse.any fun b => decide (r.Duplicates b)) =
          decide (∃ old ∈ kept, old.Duplicates r) := by
        rw [Bool.eq_iff_iff]
        simp only [List.any_reverse, List.any_eq_true, decide_eq_true_eq]
        exact exists_congr fun old => and_congr_right fun _ => ⟨.symm, .symm⟩
      rw [List.foldl_cons, ih, List.eraseDupsBy.loop, hany]
      unfold noted
      by_cases hr : ∃ old ∈ kept, old.Duplicates r <;> simp [hr]
  exact hloop []

end Ledger

end FrameAudit
