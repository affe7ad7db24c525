import FrameAudit.Proofs.Frame.Callers
import FrameAudit.Proofs.Ledger.Noting

/-! # The reports beneath a frame

`Frames.subtreeReports` are the reports of the frame and of all frames beneath it, each frame once
and in the order of their opening (`Frames.Linked.subtreeReports_eq`). They change only if one of
these ledgers does, or if a frame is opened beneath the frame
(`Frames.Extends.subtreeReports_eq`). -/

namespace FrameAudit

namespace Frames

variable {frames old new : Frames} {f g : FrameId} {r : Frame} {depth : Nat} {ρ : Report}

/-- The reports in the ledger of a frame. -/
def ledgerReports (frames : Frames) (f : FrameId) : List Report :=
  (frames.get? f).elim [] (·.ledger.reports)

theorem ledgerReports_of_some (h : frames.get? f = some r) :
    frames.ledgerReports f = r.ledger.reports := by
  simp [ledgerReports, h]

open Classical in
/-- The reports of the frames that `p` holds of, in the order of the frames and as they are seen
from a call at the given depth. -/
noncomputable def reportsWhere (frames : Frames) (p : FrameId → Prop) (depth : Nat) : List Report :=
  (List.range frames.length).flatMap fun i =>
    if p ⟨i⟩ then (frames.ledgerReports ⟨i⟩).map (·.below depth) else []

theorem mem_reportsWhere {p : FrameId → Prop} :
    ρ ∈ frames.reportsWhere p depth ↔
      ∃ g r, frames.get? g = some r ∧ p g ∧ ∃ own ∈ r.ledger.reports, ρ = own.below depth := by
  simp only [reportsWhere, List.mem_flatMap, List.mem_range]
  constructor
  · rintro ⟨i, hi, hρ⟩
    split at hρ
    next hp =>
      have hr : frames.get? ⟨i⟩ = some frames[i] := List.getElem?_eq_getElem hi
      rw [ledgerReports_of_some hr] at hρ
      obtain ⟨own, hown, rfl⟩ := List.mem_map.1 hρ
      exact ⟨⟨i⟩, _, hr, hp, own, hown, rfl⟩
    next => simp at hρ
  · rintro ⟨g, r, hr, hp, own, hown, rfl⟩
    refine ⟨g.index, index_lt_length hr, ?_⟩
    rw [if_pos hp, ledgerReports_of_some hr]
    exact List.mem_map.2 ⟨own, hown, rfl⟩

/-- Indices from the length on make no difference. -/
private theorem reportsWhere_eq_range {p : FrameId → Prop} {n : Nat} (h : frames.length ≤ n) :
    frames.reportsWhere p depth = (List.range n).flatMap fun i =>
      open Classical in
      if p ⟨i⟩ then (frames.ledgerReports ⟨i⟩).map (·.below depth) else [] := by
  obtain ⟨k, rfl⟩ := Nat.exists_eq_add_of_le h
  rw [List.range_add, List.flatMap_append, reportsWhere, List.flatMap_map]
  refine List.self_eq_append_right.2 (List.flatMap_eq_nil_iff.2 fun i _ => ?_)
  have hnone : frames.get? ⟨frames.length + i⟩ = none :=
    List.getElem?_eq_none (Nat.le_add_right ..)
  simp [ledgerReports, hnone]

theorem reportsWhere_congr {p q : FrameId → Prop} (hlen : old.length ≤ new.length)
    (hpq : ∀ g, g.index < new.length → (q g ↔ p g))
    (hsame : ∀ g, p g → new.ledgerReports g = old.ledgerReports g) :
    new.reportsWhere q depth = old.reportsWhere p depth := by
  rw [reportsWhere_eq_range (p := p) hlen, reportsWhere]
  refine List.flatMap_congr fun i hi => ?_
  by_cases hp : p ⟨i⟩
  · rw [if_pos hp, if_pos ((hpq ⟨i⟩ (List.mem_range.1 hi)).2 hp), hsame _ hp]
  · rw [if_neg hp, if_neg (mt (hpq ⟨i⟩ (List.mem_range.1 hi)).1 hp)]

private theorem flatMap_zipIdx {α β : Type} (l : List α) (k : Nat) (F : α × Nat → List β) :
    (l.zipIdx k).flatMap F =
      (List.range l.length).flatMap fun i => l[i]?.elim [] fun a => F (a, k + i) := by
  induction l generalizing k with
  | nil => rfl
  | cons a l ih =>
    rw [List.zipIdx_cons, List.flatMap_cons, ih, List.length_cons, List.range_succ_eq_map,
      List.flatMap_cons, List.flatMap_map]
    refine congrArg₂ _ rfl (List.flatMap_congr fun i _ => ?_)
    rw [List.getElem?_cons_succ, Nat.succ_eq_add_one, Nat.add_assoc, Nat.add_comm 1]

private theorem flatMap_filterMap {α β γ : Type} (l : List α) (G : α → Option β)
    (F : β → List γ) : (l.filterMap G).flatMap F = l.flatMap fun a => (G a).elim [] F := by
  induction l with
  | nil => rfl
  | cons a l ih => cases h : G a <;> simp [h, ih]

namespace Linked

/-- The frames beneath a frame come after it, so nothing is lost by looking only there. -/
theorem subtreeReports_eq (h : Linked frames) (f : FrameId) (depth : Nat) :
    frames.subtreeReports f depth =
      frames.reportsWhere (fun g => g = f ∨ Beneath frames g f) depth := by
  let F : Frame × Nat → List Report := fun x =>
    if x.2 = f.index ∨ frames.isBeneath ⟨x.2⟩ f then x.1.ledger.reports.map (·.below depth) else []
  have hdrop : frames.subtreeReports f depth =
      ((frames.drop f.index).zipIdx f.index).flatMap F := by
    rw [subtreeReports, subtree, flatMap_filterMap]
    refine List.flatMap_congr fun x _ => ?_
    by_cases hx : x.2 = f.index ∨ frames.isBeneath ⟨x.2⟩ f <;> simp [F, hx]
  have hiff : ∀ {i r}, frames.get? ⟨i⟩ = some r →
      ((i = f.index ∨ frames.isBeneath ⟨i⟩ f = true) ↔
        ((⟨i⟩ : FrameId) = f ∨ Beneath frames ⟨i⟩ f)) := by
    intro i r hr
    have hi : (⟨i⟩ : FrameId) = f ↔ i = f.index := by cases f; simp
    rw [hi, h.isBeneath_iff hr]
  have hall : frames.reportsWhere (fun g => g = f ∨ Beneath frames g f) depth =
      (frames.zipIdx 0).flatMap F := by
    rw [flatMap_zipIdx, reportsWhere]
    refine List.flatMap_congr fun i hi => ?_
    have hr := List.getElem?_eq_getElem (List.mem_range.1 hi)
    rw [hr, Option.elim_some, Nat.zero_add, ledgerReports_of_some hr]
    by_cases hp : (⟨i⟩ : FrameId) = f ∨ Beneath frames ⟨i⟩ f
    · simp only [F, if_pos hp, if_pos ((hiff hr).2 hp)]
    · simp only [F, if_neg hp, if_neg (mt (hiff hr).1 hp)]
  have htake : ((frames.take f.index).zipIdx 0).flatMap F = [] := by
    refine List.flatMap_eq_nil_iff.2 fun x hx => ?_
    obtain ⟨r, i⟩ := x
    have hr := List.mk_mem_zipIdx_iff_getElem?.1 hx
    rw [List.getElem?_take] at hr
    split at hr
    next hlt =>
      have hb : ¬Beneath frames ⟨i⟩ f := fun hb => by
        have := (hb.lt h hr).1
        simp only at this
        omega
      have hne : (⟨i⟩ : FrameId) ≠ f := by
        rintro rfl
        simp at hlt
      exact if_neg (mt (hiff hr).1 (by simp [hne, hb]))
    next => simp at hr
  rw [hdrop, hall]
  rcases Nat.lt_or_ge f.index frames.length with hlt | hge
  · conv_rhs => rw [← List.take_append_drop f.index frames]
    rw [List.zipIdx_append, List.flatMap_append, htake, List.nil_append, List.length_take,
      Nat.min_eq_left (Nat.le_of_lt hlt), Nat.zero_add]
  · rw [List.drop_eq_nil_of_le hge]
    rw [List.take_of_length_le hge] at htake
    exact htake.symm

theorem mem_subtreeReports (h : Linked frames) :
    ρ ∈ frames.subtreeReports f depth ↔ ∃ g r, frames.get? g = some r ∧
      (g = f ∨ Beneath frames g f) ∧ ∃ own ∈ r.ledger.reports, ρ = own.below depth := by
  rw [h.subtreeReports_eq, mem_reportsWhere]

end Linked

/-- The reports beneath a frame stay the same if its ledger and those beneath it do, and nothing is
opened beneath it. -/
theorem Extends.subtreeReports_eq (hext : Extends old new) (hold : Linked old) (hnew : Linked new)
    (hlen : old.length ≤ new.length)
    (hopened : ∀ g, old.get? g = none → ¬Beneath new g f)
    (hsame : ∀ g, g = f ∨ Beneath old g f → new.ledgerReports g = old.ledgerReports g) :
    new.subtreeReports f depth = old.subtreeReports f depth := by
  rw [hold.subtreeReports_eq, hnew.subtreeReports_eq]
  refine reportsWhere_congr hlen (fun g _ => or_congr_right ?_) hsame
  cases hg : old.get? g with
  | none =>
    refine iff_of_false (hopened g hg) fun hb => ?_
    obtain ⟨r', hr'⟩ := hb.exists_frame
    simp [hg] at hr'
  | some r' => exact hext.beneath_iff hold hnew hg

end Frames

end FrameAudit
