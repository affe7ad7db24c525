import FrameAudit.Proofs.Ledger.Noting
import Mathlib.Data.List.Induction

/-! # The first report of each class

Saying the same divides reports into classes. Of reports that are pushed on a new ledger, the first
one of each class is recorded and the others are refused (`Ledger.pushAll_empty`,
`Ledger.distinct_eq_recorded`), whatever callers stand in front of all paths. No later change of the
ledger brings two reports of one class together (`Ledger.Distinct.run`). -/

namespace FrameAudit.Ledger

variable {l : Ledger} {reports : List Report} {r : Report}

/-! ## Pushing several reports -/

/-- Records reports one after the other. Tells of each whether it was recorded. -/
def pushAll : List Report → Ledger → Except Phase (List Bool × Ledger)
  | [], l => .ok ([], l)
  | r :: reports, l => do
    let (answer, l) ← l.push r
    let (answers, l) ← pushAll reports l
    return (answer :: answers, l)

theorem pushAll_concat (reports : List Report) (r : Report) (l : Ledger) :
    l.pushAll (reports ++ [r]) = (do
      let (answers, l) ← l.pushAll reports
      let (answer, l) ← l.push r
      return (answers ++ [answer], l)) := by
  induction reports generalizing l with
  | nil => rfl
  | cons x reports ih =>
    simp only [List.cons_append, pushAll, ih, bind_assoc, pure_bind]

/-- Of each report, whether none before it says the same. -/
def firsts (reports : List Report) : List Bool :=
  reports.mapIdx fun i r => decide (∀ old ∈ reports.take i, ¬old.Duplicates r)

/-- The reports whose answer is that they were recorded. -/
def recorded (reports : List Report) (answers : List Bool) : List Report :=
  ((reports.zip answers).filter Prod.snd).map Prod.fst

theorem firsts_concat (reports : List Report) (r : Report) :
    firsts (reports ++ [r]) = firsts reports ++ [decide (∀ old ∈ reports, ¬old.Duplicates r)] := by
  have hbefore : (reports.mapIdx fun i x =>
      decide (∀ old ∈ (reports ++ [r]).take i, ¬old.Duplicates x)) = firsts reports := by
    refine List.mapIdx_eq_mapIdx_iff.2 fun i hi => ?_
    rw [List.take_append_of_le_length (Nat.le_of_lt hi)]
  rw [firsts, List.mapIdx_concat, hbefore, List.take_left]

theorem recorded_concat {answers : List Bool} (h : reports.length = answers.length) (r : Report)
    (answer : Bool) : recorded (reports ++ [r]) (answers ++ [answer]) =
      recorded reports answers ++ if answer then [r] else [] := by
  rw [recorded, List.zip_append h, List.filter_append, List.map_append]
  cases answer with
  | true => rfl
  | false => rfl

theorem length_firsts (reports : List Report) : (firsts reports).length = reports.length :=
  List.length_mapIdx

theorem distinct_concat (reports : List Report) (r : Report) :
    distinct (reports ++ [r]) = noted (distinct reports) r := by
  rw [distinct, List.foldl_append]
  rfl

/-- A report of the list that says the same can be found among the first ones of the classes. -/
theorem exists_duplicates_distinct_iff :
    (∃ old ∈ distinct reports, old.Duplicates r) ↔ ∃ old ∈ reports, old.Duplicates r := by
  constructor
  · rintro ⟨old, hold, hdup⟩
    exact ⟨old, (mem_foldl_noted_subset hold).resolve_left List.not_mem_nil, hdup⟩
  · rintro ⟨x, hx, hdup⟩
    obtain ⟨old, hold, hsame⟩ := exists_duplicates_foldl_noted [] hx
    exact ⟨old, hold, hsame.trans hdup⟩

/-- The reports of different classes are those that are the first to say something. -/
theorem distinct_eq_recorded (reports : List Report) :
    distinct reports = recorded reports (firsts reports) := by
  induction reports using List.reverseRecOn with
  | nil => rfl
  | append_singleton reports r ih =>
    rw [distinct_concat, firsts_concat, recorded_concat (length_firsts reports).symm, ← ih, noted]
    simp only [exists_duplicates_distinct_iff]
    by_cases hr : ∃ old ∈ reports, old.Duplicates r
    · rw [if_pos hr, if_neg, List.append_nil]
      simpa using hr
    · rw [if_neg hr, if_pos]
      simpa using hr

/-- Each report is answered by what was before it in the list, though it is compared with what was
recorded. -/
theorem pushAll_empty (reports : List Report) :
    ({} : Ledger).pushAll reports = .ok (firsts reports, { reports := distinct reports }) := by
  induction reports using List.reverseRecOn with
  | nil => rfl
  | append_singleton reports r ih =>
    have hanswer : (decide ¬({ reports := distinct reports } : Ledger).Holds r) =
        decide (∀ old ∈ reports, ¬old.Duplicates r) := by
      rw [decide_eq_decide, Holds, exists_duplicates_distinct_iff]
      simp
    rw [pushAll_concat, ih, firsts_concat, distinct_concat, ← hanswer]
    simp only [bind, Except.bind, push_writable, pure, Except.pure]

theorem push_of_mem (h : r ∈ reports) : ({ reports := distinct reports } : Ledger).push r =
    .ok (false, { reports := distinct reports }) := by
  have hr : ({ reports := distinct reports } : Ledger).Holds r :=
    exists_duplicates_foldl_noted [] h
  rw [push, if_pos rfl, if_pos hr]

/-! ## Callers in front of the paths -/

theorem distinct_map_rebase (reports : List Report) (callers : CallPath) :
    distinct (reports.map (·.rebase callers)) = (distinct reports).map (·.rebase callers) := by
  induction reports using List.reverseRecOn with
  | nil => rfl
  | append_singleton reports r ih =>
    rw [List.map_append, List.map_singleton, distinct_concat, ih, noted_map_rebase, distinct_concat]

theorem firsts_map_rebase (reports : List Report) (callers : CallPath) :
    firsts (reports.map (·.rebase callers)) = firsts reports := by
  induction reports using List.reverseRecOn with
  | nil => rfl
  | append_singleton reports r ih =>
    rw [List.map_append, List.map_singleton, firsts_concat, ih, firsts_concat]
    simp only [List.forall_mem_map, Report.rebase_duplicates_iff]

/-! ## Any changes -/

/-- What can be done to a ledger. -/
inductive Change where
  | push (r : Report)
  | retain (keep : Report → Bool)
  | settle
  | freeze

/-- The ledger after something was tried with it: as it was, if the phase did not admit that. -/
def attempt {α : Type} (l : Ledger) (change : Ledger → Except Phase (α × Ledger)) : Ledger :=
  match change l with
  | .ok (_, l) => l
  | .error _ => l

/-- The ledger after a change, whether it was admitted or not. -/
def after (l : Ledger) : Change → Ledger
  | .push r => l.attempt (·.push r)
  | .retain keep => l.attempt (·.retain keep)
  | .settle => l.attempt settle
  | .freeze => l.freeze

theorem reports_after_push (l : Ledger) (r : Report) :
    (l.after (.push r)).reports = l.reports ∨
      (l.after (.push r)).reports = noted l.reports r := by
  by_cases hw : l.phase = .writable
  · right
    simp only [after, attempt, push_writable hw]
  · left
    simp only [after, attempt, push, if_neg hw]

theorem reports_after_retain (l : Ledger) (keep : Report → Bool) :
    (l.after (.retain keep)).reports.Sublist l.reports := by
  by_cases hf : l.phase = .frozen
  · simp only [after, attempt, retain, if_pos hf]
    exact .refl _
  · simp only [after, attempt, retain, if_neg hf]
    exact List.filter_sublist

theorem reports_after_settle (l : Ledger) : (l.after .settle).reports = l.reports := by
  by_cases hw : l.phase = .writable
  · simp only [after, attempt, settle, if_pos hw]
  · simp only [after, attempt, settle, if_neg hw]

theorem Distinct.after (h : Distinct l.reports) (change : Change) :
    Distinct (l.after change).reports := by
  cases change with
  | push r =>
    rcases reports_after_push l r with hsame | hnoted
    · exact hsame ▸ h
    · exact hnoted ▸ h.noted r
  | retain keep => exact h.sublist (reports_after_retain l keep)
  | settle => exact (reports_after_settle l).symm ▸ h
  | freeze => exact h

theorem Distinct.run (h : Distinct l.reports) (changes : List Change) :
    Distinct (changes.foldl Ledger.after l).reports := by
  induction changes generalizing l with
  | nil => exact h
  | cons change changes ih => exact ih (h.after change)

/-- A new ledger on which reports are pushed answers each of them by whether none before it says the
same, and holds those that were recorded, in order. To push one of them again changes nothing.
Callers in front of all paths change neither the answers nor, but for those callers, what is held.
Whatever is done to the ledger then, no two of its reports say the same. -/
theorem first_of_each_class (reports : List Report) :
    let l : Ledger := { reports := recorded reports (firsts reports) }
    ({} : Ledger).pushAll reports = .ok (firsts reports, l) ∧
      (∀ r ∈ reports, l.push r = .ok (false, l)) ∧
      (∀ callers : CallPath,
        ({} : Ledger).pushAll (reports.map fun r => { r with path := callers ++ r.path }) =
          .ok (firsts reports,
            { reports := l.reports.map fun r => { r with path := callers ++ r.path } })) ∧
      ∀ changes : List Change, Distinct (changes.foldl after l).reports := by
  rw [← distinct_eq_recorded]
  refine ⟨pushAll_empty reports, fun r hr => push_of_mem hr, fun callers => ?_, fun changes => ?_⟩
  · -- to rebase a report is to put the callers in front of its path
    have hpush := pushAll_empty (reports.map (·.rebase callers))
    rw [firsts_map_rebase, distinct_map_rebase] at hpush
    exact hpush
  · have hempty : Distinct [] := List.Pairwise.nil
    exact (hempty.foldl_noted reports).run changes

/-- A report at a statement of the entry. -/
def atStatement (finding : Finding) : Report := ⟨[⟨⟨"main", []⟩, ⟨"main.jl", 3⟩⟩], finding⟩

/-- Five reports at one path. Undefined variables are reported there once, whichever they are, and
conditions once for each type. -/
def sharedPath : List Report :=
  [atStatement (.localUndefVar "x"), atStatement (.localUndefVar "y"),
   atStatement (.nonBooleanCond [.any] 1), atStatement (.nonBooleanCond [.bottom] 1),
   atStatement (.nonBooleanCond [.any] 1)]

/-- The second variable is refused as long as the first one is there, also when the paths start at a
caller of the entry. -/
theorem first_of_each_class_sharedPath :
    let l : Ledger := { reports := [atStatement (.localUndefVar "x"),
      atStatement (.nonBooleanCond [.any] 1), atStatement (.nonBooleanCond [.bottom] 1)] }
    let y := atStatement (.localUndefVar "y")
    let callers : CallPath := [⟨⟨"run", []⟩, ⟨"run.jl", 8⟩⟩]
    let changes : List Change :=
      [.retain fun r => r.kind ≠ .localUndefVar, .push y, .settle, .push y, .freeze]
    ({} : Ledger).pushAll sharedPath = .ok ([true, false, true, true, false], l) ∧
      y ∈ sharedPath ∧ l.push y = .ok (false, l) ∧
      ({} : Ledger).pushAll (sharedPath.map fun r => { r with path := callers ++ r.path }) =
        .ok ([true, false, true, true, false],
          { reports := l.reports.map fun r => { r with path := callers ++ r.path } }) ∧
      y ∈ (changes.foldl after l).reports ∧ Distinct (changes.foldl after l).reports := by
  intro l y callers changes
  obtain ⟨hpush, hagain, hcallers, hlater⟩ := first_of_each_class sharedPath
  have hfirsts : firsts sharedPath = [true, false, true, true, false] := by decide
  have hmem : y ∈ sharedPath := by decide
  rw [hfirsts] at hpush hagain hcallers hlater
  exact ⟨hpush, hmem, hagain y hmem, hcallers callers, by decide, hlater changes⟩

end FrameAudit.Ledger
