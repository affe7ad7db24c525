import FrameAudit.Proofs.Recursion.Driver
import FrameAudit.Proofs.Script.OwnReports
import Mathlib.Data.Set.Basic

/-! # The reports of a frame while others are being analysed

What the sound policy reports in the frame of a signature depends on the calls made there only
through their results, and these depend on the stack: a callee that is being analysed has no value
yet. The reports are compared by their tips, that is, by kind and by the last step of the path. The
stack makes a difference to the tips of one kind only, and the more is on it, the fewer there are
(`BehaviourTable.own_anti`). -/

namespace FrameAudit

/-- The kind of a report and the last step of its path. -/
abbrev Tip := ReportKind × Option PathStep

def Report.tip (ρ : Report) : Tip := (ρ.kind, ρ.path.getLast?)

def tips (reports : List Report) : Set Tip := {t | ∃ ρ ∈ reports, ρ.tip = t}

namespace Report

variable {ρ a b : Report}

theorem tip_rebase (callers : CallPath) (hne : ρ.path ≠ []) : (ρ.rebase callers).tip = ρ.tip := by
  rw [tip, rebase, CallPath.rebase, List.getLast?_append_of_ne_nil _ hne]
  rfl

theorem tip_below {depth : Nat} (h : depth < ρ.path.length) : (ρ.below depth).tip = ρ.tip := by
  rw [tip, below, CallPath.below, List.getLast?_drop, if_neg (Nat.not_le.2 h)]
  rfl

theorem Duplicates.tip_eq (h : a.Duplicates b) : a.tip = b.tip := by
  rw [tip, tip, h.1, h.2.1]

end Report

section

variable {reports reports' rs : List Report} {t : Tip} {ρ : Report}

theorem mem_tips_iff : t ∈ tips reports ↔ ∃ ρ ∈ reports, ρ.tip = t := Iff.rfl

theorem mem_tips (h : ρ ∈ reports) : ρ.tip ∈ tips reports := ⟨ρ, h, rfl⟩

theorem tips_nil : tips [] = ∅ := Set.eq_empty_of_forall_notMem fun _ ⟨_, hρ, _⟩ => nomatch hρ

theorem tips_append (reports reports' : List Report) :
    tips (reports ++ reports') = tips reports ∪ tips reports' := by
  ext t
  simp only [mem_tips_iff, Set.mem_union, List.mem_append, or_and_right, exists_or]

/-- No tip is lost by noting reports that say the same only once. -/
theorem tips_foldl_noted (reports rs : List Report) :
    tips (rs.foldl Ledger.noted reports) = tips reports ∪ tips rs := by
  ext t
  constructor
  · rintro ⟨ρ, hρ, rfl⟩
    exact (Ledger.mem_foldl_noted_subset hρ).imp mem_tips mem_tips
  · rintro (⟨ρ, hρ, rfl⟩ | ⟨ρ, hρ, rfl⟩)
    · exact mem_tips (Ledger.mem_foldl_noted_of_mem hρ rs)
    · obtain ⟨old, hold, hdup⟩ := Ledger.exists_duplicates_foldl_noted reports hρ
      exact ⟨old, hold, hdup.tip_eq⟩

theorem tips_map_rebase (callers : CallPath) (h : ∀ ρ ∈ reports, ρ.path ≠ []) :
    tips (reports.map (·.rebase callers)) = tips reports := by
  ext t
  simp only [mem_tips_iff, List.mem_map, exists_exists_and_eq_and]
  refine exists_congr fun ρ => and_congr_right fun hρ => ?_
  rw [Report.tip_rebase callers (h ρ hρ)]

end

/-- Leaving out a kind of reports does not matter to the others. -/
theorem Ledger.filter_foldl_noted (kind : ReportKind) (reports rs : List Report) :
    (rs.foldl noted reports).filter (·.kind ≠ kind) =
      (rs.filter (·.kind ≠ kind)).foldl noted (reports.filter (·.kind ≠ kind)) := by
  induction rs generalizing reports with
  | nil => rfl
  | cons ρ rs ih =>
    rw [List.foldl_cons, ih, List.filter_cons]
    by_cases hρ : ρ.kind = kind
    · have hsame : (noted reports ρ).filter (·.kind ≠ kind) = reports.filter (·.kind ≠ kind) := by
        unfold noted
        split
        · rfl
        · simp [hρ]
      rw [hsame, if_neg (by simpa using hρ)]
    · have hiff : (∃ old ∈ reports.filter (·.kind ≠ kind), old.Duplicates ρ) ↔
          ∃ old ∈ reports, old.Duplicates ρ := by
        constructor
        · rintro ⟨old, hold, hdup⟩
          exact ⟨old, List.mem_of_mem_filter hold, hdup⟩
        · rintro ⟨old, hold, hdup⟩
          exact ⟨old, List.mem_filter.2 ⟨hold, by simpa [hdup.1] using hρ⟩, hdup⟩
      have hsame : (noted reports ρ).filter (·.kind ≠ kind) =
          noted (reports.filter (·.kind ≠ kind)) ρ := by
        unfold noted
        by_cases hold : ∃ old ∈ reports, old.Duplicates ρ
        · rw [if_pos hold, if_pos (hiff.2 hold)]
        · rw [if_neg hold, if_neg (mt hiff.1 hold), List.filter_append]
          simp [hρ]
      rw [hsame, if_pos (by simpa using hρ)]
      rfl

theorem Ledger.seriousPositions_filter (reports : List Report) :
    seriousPositions { reports := reports.filter (·.kind ≠ .invalidInvoke) } =
      seriousPositions { reports } := by
  simp only [seriousPositions, List.filterMap_filter]
  refine List.filterMap_congr fun ρ _ => ?_
  obtain ⟨path, finding⟩ := ρ
  cases finding <;> rfl

/-! ## Hooks -/

namespace Behaviour

variable {view : FrameView} {result result' : Signature → Ty} {statements : List Statement}
  {called : List Signature} {body : List Instruction} {ρ : Report} {t : Tip}

/-- The reports at the hooks of a behaviour, given what calls result in and which were made
before. -/
def hookReports (result : Signature → Ty) (view : FrameView) :
    List Statement → List Signature → List Report
  | [], _ => []
  | .hook position hook :: rest, called =>
    ((hook.finding? .sound view (called.map result) position).map (view.report position)).toList ++
      hookReports result view rest called
  | .call _ callee :: rest, called => hookReports result view rest (called ++ [callee])

/-- The reports of a body before the uncaught raises. -/
def notedReports (result : Signature → Ty) (view : FrameView) (statements : List Statement)
    (body : List Instruction) : List Report :=
  Ledger.distinct (hookReports result view statements [] ++ undefReports .sound view body)

/-- The reports that a behaviour records in its own frame under the sound policy, as seen from
there. -/
def reports (result : Signature → Ty) (view : FrameView) : Behaviour → List Report
  | .failure position error => [view.report position (.generatorError error)]
  | .body statements value body refined =>
    completedReports .sound view body value refined (notedReports result view statements body)

theorem mem_hookReports (h : ρ ∈ hookReports result view statements called) :
    view.Owns ρ ∧ ρ.kind ≠ .uncaughtException := by
  induction statements generalizing called with
  | nil => simp [hookReports] at h
  | cons statement rest ih =>
    cases statement with
    | hook position hook =>
      rcases List.mem_append.1 h with h | h
      · obtain ⟨finding, hf, rfl⟩ := Option.map_eq_some_iff.1 (Option.mem_toList.1 h)
        exact ⟨⟨position, finding, rfl⟩, Hook.kind_ne_of_finding? hf⟩
      · exact ih h
    | call position callee => exact ih h

theorem mem_notedReports (h : ρ ∈ notedReports result view statements body) :
    view.Owns ρ ∧ ρ.kind ≠ .uncaughtException := by
  rcases Ledger.mem_foldl_noted_subset h with h | h
  · exact absurd h List.not_mem_nil
  · rcases List.mem_append.1 h with h | h
    · exact mem_hookReports h
    · obtain ⟨howns, hkind⟩ := mem_undefReports h
      exact ⟨howns, by simp [hkind]⟩

theorem owns_of_mem_reports {b : Behaviour} (h : ρ ∈ b.reports result view) : view.Owns ρ := by
  cases b with
  | failure position error => exact ⟨position, _, List.mem_singleton.1 h⟩
  | body statements value body refined =>
    rcases mem_completedReports h with h | h
    · exact (mem_notedReports h).1
    · exact (uncaughtReport?_eq_some h).1

/-- The calls of a behaviour are all that matters of the results. -/
theorem reports_congr {b : Behaviour} (h : ∀ site ∈ b.calls, result site.2 = result' site.2) :
    b.reports result view = b.reports result' view := by
  cases b with
  | failure position error => rfl
  | body statements value body refined =>
    have hhooks : ∀ statements called, (∀ callee ∈ called, result callee = result' callee) →
        (∀ site ∈ statements.filterMap Statement.call?, result site.2 = result' site.2) →
        hookReports result view statements called = hookReports result' view statements called := by
      intro statements
      induction statements with
      | nil => exact fun _ _ _ => rfl
      | cons statement rest ih =>
        intro called hcalled hsites
        cases statement with
        | hook position hook =>
          rw [hookReports, hookReports, ih called hcalled hsites,
            List.map_congr_left fun callee hmem => hcalled callee hmem]
        | call position callee =>
          refine ih _ (fun c hc => ?_) fun site hsite => hsites site (List.mem_cons_of_mem _ hsite)
          rcases List.mem_append.1 hc with hc | hc
          · exact hcalled c hc
          · rw [List.mem_singleton.1 hc]
            exact hsites (position, callee) List.mem_cons_self
    rw [reports, reports, notedReports, notedReports,
      hhooks statements [] (fun c hc => absurd hc List.not_mem_nil) h]

/-! ## What the results of calls make a difference to -/

/-- A finding is there with other results, too, unless a call is to blame and has lost its value. -/
theorem finding?_of_bottom {hook : Hook} {position : Position} {finding : Finding}
    (h : hook.finding? .sound view (called.map result) position = some finding)
    (hle : finding.kind = .invalidInvoke →
      ∀ callee, (result' callee).isBottom → (result callee).isBottom) :
    hook.finding? .sound view (called.map result') position = some finding := by
  cases hook with
  | dispatchCall argTypes call =>
    simp only [Hook.finding?, Hook.observations, List.findSome?_singleton, Strictness.judge,
      Option.ite_none_right_eq_some, Bool.and_eq_true, Bool.not_eq_true'] at h ⊢
    obtain ⟨⟨hbottom, hcallee⟩, hfinding⟩ := h
    cases hfinding
    refine ⟨⟨hbottom, ?_⟩, rfl⟩
    have hmap : ∀ result : Signature → Ty, (call.callee.bind fun k => (called.map result)[k]?) =
        (call.callee.bind (called[·]?)).map result := by
      intro result
      cases call.callee <;> simp
    rw [hmap] at hcallee ⊢
    cases hk : call.callee.bind (called[·]?) with
    | none => rfl
    | some callee =>
      rw [hk] at hcallee
      exact Bool.eq_false_iff.2 fun h => Bool.eq_false_iff.1 hcallee (hle rfl callee h)
  | _ => exact h

theorem mem_hookReports_of_bottom (h : ρ ∈ hookReports result view statements called)
    (hle : ρ.kind = .invalidInvoke →
      ∀ callee, (result' callee).isBottom → (result callee).isBottom) :
    ρ ∈ hookReports result' view statements called := by
  induction statements generalizing called with
  | nil => exact h
  | cons statement rest ih =>
    cases statement with
    | hook position hook =>
      rcases List.mem_append.1 h with h | h
      · obtain ⟨finding, hf, rfl⟩ := Option.map_eq_some_iff.1 (Option.mem_toList.1 h)
        refine List.mem_append_left _ (Option.mem_toList.2 ?_)
        exact Option.map_eq_some_iff.2 ⟨finding, finding?_of_bottom hf hle, rfl⟩
      · exact List.mem_append_right _ (ih h)
    | call position callee => exact ih h

theorem filter_dispatchCall (results : List Ty) (view : FrameView) (position : Position)
    (argTypes : List Ty) (call : ScriptedCall) :
    (((Hook.dispatchCall argTypes call).finding? .sound view results position).map
      (view.report position)).toList.filter (·.kind ≠ .invalidInvoke) = [] := by
  refine List.filter_eq_nil_iff.2 fun ρ hρ => ?_
  obtain ⟨finding, hf, rfl⟩ := Option.map_eq_some_iff.1 (Option.mem_toList.1 hρ)
  obtain ⟨o, ho, hj⟩ := List.exists_of_findSome?_eq_some hf
  obtain rfl := List.mem_singleton.1 ho
  have hkind : finding.kind = .invalidInvoke := Strictness.kind_of_judge hj
  simp [Report.kind, FrameView.report, hkind]

/-- Reports of other kinds do not depend on the results. -/
theorem filter_hookReports (result result' : Signature → Ty) (view : FrameView)
    (statements : List Statement) (called : List Signature) :
    (hookReports result view statements called).filter (·.kind ≠ .invalidInvoke) =
      (hookReports result' view statements called).filter (·.kind ≠ .invalidInvoke) := by
  induction statements generalizing called with
  | nil => rfl
  | cons statement rest ih =>
    cases statement with
    | call position callee => exact ih _
    | hook position hook =>
      rw [hookReports, hookReports, List.filter_append, List.filter_append, ih]
      refine congrArg (· ++ _) ?_
      cases hook with
      | dispatchCall argTypes call => rw [filter_dispatchCall, filter_dispatchCall]
      | _ => rfl

/-- The tips of a behaviour, apart from which raises are left. -/
theorem tips_body (statements : List Statement) (value : Ty) (body : List Instruction)
    (refined : Option Ty) : tips (reports result view (.body statements value body refined)) =
      tips (hookReports result view statements []) ∪ tips (undefReports .sound view body) ∪
        tips (uncaughtReport? view body (notedReports result view statements body)).toList := by
  rw [reports, completedReports, if_pos (.inl rfl), tips_foldl_noted, notedReports, Ledger.distinct,
    tips_foldl_noted, tips_append, tips_nil, Set.empty_union]

theorem uncaughtReport?_eq (result result' : Signature → Ty) (view : FrameView)
    (statements : List Statement) (body : List Instruction) :
    uncaughtReport? view body (notedReports result view statements body) =
      uncaughtReport? view body (notedReports result' view statements body) := by
  -- explicit dispatches are not serious, and the other reports do not depend on the results
  have hserious : Ledger.seriousPositions { reports := notedReports result view statements body } =
      Ledger.seriousPositions { reports := notedReports result' view statements body } := by
    rw [← Ledger.seriousPositions_filter, notedReports, Ledger.distinct, Ledger.filter_foldl_noted,
      List.filter_append, filter_hookReports result result', ← List.filter_append,
      ← Ledger.filter_foldl_noted, Ledger.seriousPositions_filter]
    rfl
  rw [uncaughtReport?, uncaughtReport?, hserious]

/-- A tip is there with other results, too, unless a call is to blame and has lost its value. -/
theorem mem_tips_of_bottom {b : Behaviour} (h : t ∈ tips (b.reports result view))
    (hle : t.1 = .invalidInvoke →
      ∀ callee, (result' callee).isBottom → (result callee).isBottom) :
    t ∈ tips (b.reports result' view) := by
  cases b with
  | failure position error => exact h
  | body statements value body refined =>
    rw [tips_body] at h ⊢
    rw [← uncaughtReport?_eq result result']
    refine h.imp_left (Or.imp_left ?_)
    rintro ⟨ρ, hρ, rfl⟩
    exact mem_tips (mem_hookReports_of_bottom hρ hle)

/-- The sound policy does not tell entries from other frames. -/
theorem reports_isEntry (signature : Signature) (isEntry : Bool) (b : Behaviour) :
    b.reports result ⟨signature, isEntry⟩ = b.reports result ⟨signature, false⟩ := by
  have hjudge : Strictness.judge .sound ⟨signature, isEntry⟩ =
      Strictness.judge .sound ⟨signature, false⟩ := by
    funext o
    cases o <;> simp [Strictness.judge, Strictness.looksAt]
  have hhooks : ∀ statements called, hookReports result ⟨signature, isEntry⟩ statements called =
      hookReports result ⟨signature, false⟩ statements called := by
    intro statements
    induction statements with
    | nil => exact fun _ => rfl
    | cons statement rest ih =>
      intro called
      cases statement with
      | hook position hook =>
        rw [hookReports, hookReports, ih, Hook.finding?, Hook.finding?, hjudge]
        rfl
      | call position callee => exact ih _
  cases b with
  | failure position error => rfl
  | body statements value body refined =>
    have hundef : undefReports .sound ⟨signature, isEntry⟩ body =
        undefReports .sound ⟨signature, false⟩ body := by
      rw [undefReports, undefReports, hjudge]
      rfl
    rw [reports, reports, notedReports, notedReports, hhooks, hundef]
    rfl

end Behaviour

/-! ## The frame of a behaviour -/

namespace Frame

variable (result : Signature → Ty) (r : Frame) (callers : CallPath) (statements : List Statement)
  (value : Ty) (body : List Instruction)

theorem finished_soundReports :
    (r.holding callers ((Behaviour.hookReports result r.view statements []).foldl Ledger.noted
      [])).finished .sound callers value body =
      r.settledWith callers (Behaviour.reports result r.view (.body statements value body none))
        value := by
  rw [finished_holding, Behaviour.reports, Behaviour.notedReports, Ledger.distinct,
    List.foldl_append]
  intro ρ hρ
  rcases Ledger.mem_foldl_noted_subset hρ with hρ | hρ
  · exact absurd hρ List.not_mem_nil
  · exact (Behaviour.mem_hookReports hρ).2

theorem published_soundReports (refined : Ty) :
    ((r.holding callers ((Behaviour.hookReports result r.view statements []).foldl Ledger.noted
      [])).finished .sound callers value body).published .sound refined =
      r.settledWith callers
        (Behaviour.reports result r.view (.body statements value body (some refined))) refined := by
  rw [finished_soundReports]
  exact published_settledWith (fun ρ hρ => (Behaviour.mem_notedReports hρ).2) value refined body

end Frame

/-! ## Tables -/

namespace BehaviourTable

variable (table : BehaviourTable) {signature : Signature} {stack stack' : List Signature} {t : Tip}

/-- What a call results in: nothing yet if the callee is on the stack. -/
def resultUnder (stack : List Signature) (callee : Signature) : Ty :=
  if callee ∈ stack then .bottom else (table.get callee).result

/-- The tips of what is reported in the frame of a signature, while those on the stack are being
analysed. -/
def own (stack : List Signature) (signature : Signature) : Set Tip :=
  tips ((table.get signature).reports (table.resultUnder stack) ⟨signature, false⟩)

variable {table}

/-- The stack makes a difference to one kind only, and to that one the less is on it the better. -/
theorem own_anti (h : t ∈ table.own stack signature)
    (hsub : t.1 = .invalidInvoke → stack' ⊆ stack) : t ∈ table.own stack' signature := by
  refine Behaviour.mem_tips_of_bottom h fun hkind callee hbottom => ?_
  unfold resultUnder at hbottom ⊢
  by_cases hcallee : callee ∈ stack
  · rw [if_pos hcallee]
    rfl
  · rw [if_neg fun hmem => hcallee (hsub hkind hmem)] at hbottom
    rwa [if_neg hcallee]

theorem own_congr
    (h : ∀ callee, table.Calls signature callee → (callee ∈ stack ↔ callee ∈ stack')) :
    table.own stack signature = table.own stack' signature := by
  refine congrArg tips (Behaviour.reports_congr fun site hsite => ?_)
  have hiff := h site.2 (List.mem_map_of_mem hsite)
  simp only [resultUnder, hiff]

end BehaviourTable

end FrameAudit
