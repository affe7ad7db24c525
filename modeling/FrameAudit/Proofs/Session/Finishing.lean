import FrameAudit.Proofs.Analysis.Writable
import FrameAudit.Proofs.Script.OwnReports
import FrameAudit.Proofs.Session.Reachable

/-! # Finished frames

What finishing a frame reports, read off the body: the undefined locals, the first one at each
position, and the raises that nothing reports as serious, all in one report
(`Analysis.finished_ledger_exact`). -/

namespace FrameAudit

/-! ## What a body is reported for -/

def Instruction.raise? : Instruction → Option RaiseSite
  | .raise position expr => some ⟨position, expr⟩
  | _ => none

/-- The position of a raise that is reported as serious. -/
def Finding.seriousPosition? : Finding → Option Position
  | .seriousException _ position => some position
  | _ => none

/-- The check for an undefined local at an index of a body, if it is reported: under the sound
policy always, under the basic one if the next instruction is unreachable. -/
def reportedCheck? (strictness : Strictness) (body : List Instruction) (i : Nat) :
    Option (Position × String) :=
  match body[i]? with
  | some (.undefCheck position slot) =>
    if strictness = .sound ∨ (body[i + 1]?).any Instruction.isUnreachable then some (position, slot)
    else none
  | _ => none

/-- The checks that are reported, in the order of the body, the first one at each position. -/
def reportedChecks (strictness : Strictness) (body : List Instruction) : List (Position × String) :=
  ((List.range body.length).filterMap (reportedCheck? strictness body)).eraseDupsBy
    fun a b => a.1 = b.1

/-- The raises of a body at positions that none of the reports is serious about. -/
def raisesBeside (reports : List Report) (body : List Instruction) : List RaiseSite :=
  (body.filterMap Instruction.raise?).filter fun site =>
    ∀ ρ ∈ reports, ρ.finding.seriousPosition? ≠ some site.position

namespace Frame

/-- The reports about undefined locals. -/
def undefinedReports (r : Frame) (strictness : Strictness) (callers : CallPath)
    (body : List Instruction) : List Report :=
  (reportedChecks strictness body).map fun (position, slot) =>
    r.reportAt callers position (.localUndefVar slot)

/-- The report about uncaught raises, at the first of them. Under the basic policy there is none
beside a value. -/
def uncaughtReports (r : Frame) (strictness : Strictness) (callers : CallPath) (result : Ty)
    (body : List Instruction) : List Report :=
  match raisesBeside r.ledger.reports body with
  | [] => []
  | first :: rest =>
    if strictness = .sound ∨ result.isBottom then
      [r.reportAt callers first.position (.uncaughtException (first :: rest))]
    else []

end Frame

variable {strictness : Strictness} {body : List Instruction} {reports : List Report}

/-- Checks are found by walking through the body as by their indices. -/
theorem filterMap_reportedCheck? (strictness : Strictness) (body : List Instruction) :
    (List.range body.length).filterMap (reportedCheck? strictness body) =
      (undefChecks body).filterMap fun (position, slot, definite) =>
        if strictness = .sound ∨ definite then some (position, slot) else none := by
  induction body with
  | nil => rfl
  | cons instruction rest ih =>
    have htail : ∀ i, reportedCheck? strictness (instruction :: rest) (i + 1) =
        reportedCheck? strictness rest i := fun _ => rfl
    rw [List.length_cons, List.range_succ_eq_map, List.filterMap_cons, List.filterMap_map]
    simp only [Function.comp_def, Nat.succ_eq_add_one, htail, ih]
    cases instruction with
    | undefCheck position slot =>
      simp only [undefChecks, List.filterMap_cons, reportedCheck?, List.getElem?_cons_zero,
        List.getElem?_cons_succ, List.head?_eq_getElem?]
    | _ => rfl

theorem undefReports_eq_map (strictness : Strictness) (view : FrameView)
    (body : List Instruction) : undefReports strictness view body =
      ((List.range body.length).filterMap (reportedCheck? strictness body)).map
        fun (position, slot) => view.report position (.localUndefVar slot) := by
  rw [filterMap_reportedCheck?, List.map_filterMap, undefReports]
  refine List.filterMap_congr fun (position, slot, definite) _ => ?_
  dsimp only [Strictness.judge]
  split <;> rfl

theorem distinct_undefReports (strictness : Strictness) (view : FrameView)
    (body : List Instruction) : Ledger.distinct (undefReports strictness view body) =
      (reportedChecks strictness body).map
        fun (position, slot) => view.report position (.localUndefVar slot) := by
  have hsame : ∀ a b : Position × String,
      (view.report a.1 (.localUndefVar a.2)).Duplicates (view.report b.1 (.localUndefVar b.2)) ↔
        a.1 = b.1 := by
    simp [Report.Duplicates, FrameView.report, Report.kind, Finding.kind, ReportKind.repeats]
  rw [Ledger.distinct_eq_eraseDupsBy, undefReports_eq_map, eraseDupsBy_map, reportedChecks]
  simp only [hsame]

theorem raisesBeside_eq (reports : List Report) (body : List Instruction) :
    raisesBeside reports body = unreportedRaises (Ledger.seriousPositions { reports }) body := by
  have hserious : ∀ position, position ∈ Ledger.seriousPositions { reports } ↔
      ¬∀ ρ ∈ reports, ρ.finding.seriousPosition? ≠ some position := by
    intro position
    simp only [Ledger.mem_seriousPositions, not_forall, not_not, exists_prop]
    refine exists_congr fun ρ => and_congr_right fun _ => ?_
    cases ρ.finding <;> simp [Finding.seriousPosition?]
  rw [raisesBeside, unreportedRaises, List.filter_filterMap]
  refine List.filterMap_congr fun instruction _ => ?_
  cases instruction with
  | raise position expr =>
    simp only [hserious, Instruction.raise?, Option.filter_some, decide_eq_true_eq, ite_not]
  | _ => rfl

/-- Only findings matter, and undefined locals do not. -/
theorem raisesBeside_append (reports : List Report) (depth : Nat) {undefined : List Report}
    (h : ∀ ρ ∈ undefined, ρ.kind = .localUndefVar) (body : List Instruction) :
    raisesBeside (reports.map (·.below depth) ++ undefined) body = raisesBeside reports body := by
  have hnone : ∀ ρ ∈ undefined, ∀ position, ρ.finding.seriousPosition? ≠ some position := by
    intro ρ hρ position
    have hkind : ρ.finding.kind = .localUndefVar := h ρ hρ
    cases hf : ρ.finding with
    | seriousException => simp [hf, Finding.kind] at hkind
    | _ => simp [Finding.seriousPosition?]
  unfold raisesBeside
  refine List.filter_congr fun site _ => decide_eq_decide.2 ?_
  simp only [List.forall_mem_append, List.forall_mem_map]
  exact and_iff_left fun ρ hρ => hnone ρ hρ site.position

theorem completedReports_eq_append (h : ∀ ρ ∈ reports, ρ.kind ≠ .uncaughtException)
    (view : FrameView) (result : Ty) (body : List Instruction) :
    completedReports strictness view body result none reports = reports ++
      if strictness = .sound ∨ result.isBottom then (uncaughtReport? view body reports).toList
      else [] := by
  simp only [completedReports, Option.all_none, and_true]
  split
  · cases hu : uncaughtReport? view body reports with
    | none => simp
    | some ρ =>
      have hnew : ¬∃ old ∈ reports, old.Duplicates ρ := by
        rintro ⟨old, hold, hdup⟩
        exact h old hold (hdup.1.trans (uncaughtReport?_eq_some hu).2)
      exact if_neg hnew
  · rw [List.append_nil]

namespace Frame

variable {r : Frame} {callers : CallPath}

theorem map_rebase_undefined (r : Frame) (strictness : Strictness) (callers : CallPath)
    (body : List Instruction) :
    (Ledger.distinct (undefReports strictness r.view body)).map (·.rebase callers) =
      r.undefinedReports strictness callers body := by
  rw [distinct_undefReports, List.map_map]
  rfl

theorem map_rebase_uncaught (r : Frame) (callers : CallPath) (result : Ty)
    {seen : List Report} (h : raisesBeside seen body = raisesBeside r.ledger.reports body) :
    (if strictness = .sound ∨ result.isBottom then (uncaughtReport? r.view body seen).toList
      else []).map (·.rebase callers) = r.uncaughtReports strictness callers result body := by
  rw [uncaughtReports, uncaughtReport?, ← raisesBeside_eq, h]
  cases raisesBeside r.ledger.reports body with
  | nil => simp
  | cons first rest => split <;> rfl

/-- A frame whose reports are its own and about something else, when it is finished. -/
theorem finished_eq_append (hpath : ∀ ρ ∈ r.ledger.reports, callers <+: ρ.path)
    (huncaught : ∀ ρ ∈ r.ledger.reports, ρ.kind ≠ .uncaughtException)
    (hundef : ∀ ρ ∈ r.ledger.reports, ρ.kind ≠ .localUndefVar) (result : Ty)
    (body : List Instruction) :
    r.finished strictness callers result body = { r with
      result
      ledger := ⟨r.ledger.reports ++ r.undefinedReports strictness callers body ++
        r.uncaughtReports strictness callers result body, .settled⟩ } := by
  let own := r.ledger.reports.map (·.below callers.length)
  let undefined := Ledger.distinct (undefReports strictness r.view body)
  have hown : own.map (·.rebase callers) = r.ledger.reports := Report.map_rebase_below hpath
  have hholding : r.holding callers own = r := by rw [holding, hown]
  have hownKind : ∀ ρ ∈ own, ρ.kind ≠ .uncaughtException ∧ ρ.kind ≠ .localUndefVar := by
    intro ρ hρ
    obtain ⟨old, hold, rfl⟩ := List.mem_map.1 hρ
    exact ⟨huncaught old hold, hundef old hold⟩
  have hundefined : ∀ ρ ∈ undefined, ρ.kind = .localUndefVar := by
    intro ρ hρ
    rcases Ledger.mem_foldl_noted_subset hρ with hρ | hρ
    · exact absurd hρ List.not_mem_nil
    · exact (mem_undefReports hρ).2
  -- no report so far is about an undefined local, so only repetitions among the new ones go
  have hnoted : (undefReports strictness r.view body).foldl Ledger.noted own = own ++ undefined :=
    Ledger.foldl_noted_append fun old hold ρ hρ hdup =>
      (hownKind old hold).2 (hdup.1.trans (mem_undefReports hρ).2)
  -- and none is about uncaught raises, so there is nothing to retract or to repeat
  have hno : ∀ ρ ∈ own ++ undefined, ρ.kind ≠ .uncaughtException := by
    intro ρ hρ
    rcases List.mem_append.1 hρ with hρ | hρ
    · exact (hownKind ρ hρ).1
    · simp [hundefined ρ hρ]
  have hfinished : (r.holding callers own).finished strictness callers result body = _ :=
    finished_holding (fun ρ hρ => (hownKind ρ hρ).1) result body
  rw [hholding, hnoted, completedReports_eq_append hno, settledWith, List.map_append,
    List.map_append, hown, map_rebase_undefined,
    map_rebase_uncaught r callers result (raisesBeside_append _ _ hundefined body)] at hfinished
  exact hfinished

end Frame

namespace Analysis

variable {config : Config} {cache : Cache} {a : Analysis} {f : FrameId} {r : Frame}

theorem writableOwn_invariant : Session.Invariant (fun _ _ => True) (fun _ => True)
    fun a => a.WellFormed ∧ a.frames.WritableOwn where
  empty := trivial
  start config _ _ := ⟨.start .., fun _ _ hr => by simp [Frames.get?] at hr⟩
  after op h _ := ⟨h.1.after op, h.1.writableOwn_after h.2 op⟩
  cache _ := trivial

theorem WellFormed.erased_eq_filter (h : WellFormed a) :
    (a.stack.reverse.erase f).reverse = a.stack.filter (· ≠ f) := by
  have hnodup : a.stack.reverse.Nodup := List.nodup_reverse.2 h.nodup
  rw [hnodup.erase_eq_filter, List.filter_reverse, List.reverse_reverse]
  exact List.filter_congr fun g _ => Bool.eq_iff_iff.2 (by simp)

/-- Finishing a frame that takes reports succeeds and gives the body back. The frame gets its
result, the reports about the body behind those it has, and leaves the stack. No other frame
changes. -/
theorem finished_ledger_exact (ha : RunFrom { config, cache } a) (hr : a.frames.get? f = some r)
    (hw : r.ledger.phase = .writable) (result : Ty) (body : List Instruction) : ∃ a',
      a.step (.finishFrame f result body) = .ok (.body body) a' ∧
      a'.stack = a.stack.filter (· ≠ f) ∧
      a'.frames.get? f = some { r with
        result
        ledger := ⟨r.ledger.reports ++
          r.undefinedReports a.strictness (a.frames.callerPath f) body ++
          r.uncaughtReports a.strictness (a.frames.callerPath f) result body, .settled⟩ } ∧
      ∀ g, g ≠ f → a'.frames.get? g = a.frames.get? g := by
  obtain ⟨hwell, hown⟩ := writableOwn_invariant.runBy
    (writableOwn_invariant.start config trivial) ha
  have hown := hown hr hw
  have hpath : ∀ ρ ∈ r.ledger.reports, a.frames.callerPath f <+: ρ.path := by
    intro ρ hρ
    obtain ⟨position, finding, -, rfl⟩ := hown ρ hρ
    exact List.prefix_append _ _
  obtain ⟨events, hrun⟩ := run_finishFrame result body hr (hwell.live hr hw) hw
  refine ⟨_, step_ok rfl hrun, hwell.erased_eq_filter, ?_, fun g hg => ?_⟩
  · rw [Frames.get?_update_self hr, Frame.finished_eq_append hpath
      (fun ρ hρ => (hown ρ hρ).kind_ne) fun ρ hρ => (hown ρ hρ).kind_ne_localUndefVar]
  · exact Frames.get?_update_of_ne hg _

/-- A callee reads an undefined global and throws a serious error. -/
def throwingCallee : List Operation :=
  [.enterEntry ⟨"main", []⟩,
   .enterCall ⟨"callee", []⟩ ⟨⟨0⟩, ⟨"m.jl", 1⟩⟩,
   .readGlobal ⟨1⟩ ⟨"m.jl", 10⟩ "Main" "missing" false,
   .evaluateRaise ⟨1⟩ ⟨"m.jl", 10⟩ (.const (.error ⟨"MethodError", "f(x)"⟩))]

/-- Two undefined locals at one position, one that may be defined, and raises, one of which is the
serious error. -/
def throwingBody : List Instruction :=
  [.undefCheck ⟨"m.jl", 11⟩ "x", .unreachable ⟨"m.jl", 11⟩,
   .undefCheck ⟨"m.jl", 11⟩ "y", .unreachable ⟨"m.jl", 11⟩,
   .undefCheck ⟨"m.jl", 12⟩ "z", .statement ⟨"m.jl", 12⟩,
   .raise ⟨"m.jl", 10⟩ "throw(e)", .raise ⟨"m.jl", 13⟩ "error(x)", .raise ⟨"m.jl", 14⟩ "error(y)"]

theorem finished_ledger_exact_throwingCallee :
    let a := ({ config := {}, cache := {} } : Analysis).run throwingCallee
    let path := fun line => [⟨⟨"main", []⟩, ⟨"m.jl", 1⟩⟩, ⟨⟨"callee", []⟩, ⟨"m.jl", line⟩⟩]
    RunFrom { config := {}, cache := {} } a ∧ ∃ a' r,
      a.step (.finishFrame ⟨1⟩ .bottom throwingBody) = .ok (.body throwingBody) a' ∧
      a'.stack = [⟨0⟩] ∧ a'.frames.get? ⟨1⟩ = some r ∧ r.ledger = ⟨[
        ⟨path 10, .globalUndefVar "Main" "missing"⟩,
        ⟨path 10, .seriousException ⟨"MethodError", "f(x)"⟩ ⟨"m.jl", 10⟩⟩,
        ⟨path 11, .localUndefVar "x"⟩,
        ⟨path 13, .uncaughtException [⟨⟨"m.jl", 13⟩, "error(x)"⟩, ⟨⟨"m.jl", 14⟩, "error(y)"⟩]⟩],
        .settled⟩ := by
  have ha : RunFrom { config := {}, cache := {} }
      (({ config := {}, cache := {} } : Analysis).run throwingCallee) :=
    .run .start fun _ _ _ => trivial
  obtain ⟨a', hstep, hstack, hr, -⟩ :=
    finished_ledger_exact ha (f := ⟨1⟩) rfl rfl .bottom throwingBody
  refine ⟨ha, a', _, hstep, hstack.trans ?_, hr, ?_⟩
  · decide +kernel
  · decide +kernel

end Analysis

end FrameAudit
