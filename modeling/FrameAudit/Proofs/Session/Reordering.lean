import FrameAudit.Proofs.Analysis.History
import FrameAudit.Proofs.Frame.Coverage
import FrameAudit.Proofs.Session.RootedPaths
import FrameAudit.Proofs.Ty.Join

/-! # The order of split cases

A call whose arguments are unions is split into cases, and the type of a condition is joined from
types. In which order does not matter: the signatures without a method are reported in ascending
order, and the components of a union are kept in ascending order. So when a statement is met again
with its cases in another order, what it would report is there already, and nothing changes. -/

namespace FrameAudit

/-! ## What is reported -/

/-- The signatures of the cases for which no method was found. -/
def Resolution.unmatched (resolution : Resolution) : List Signature :=
  (resolution.splits.filter (·.candidates == 0)).map SplitCase.signature

theorem Resolution.unmatched_perm {resolution other : Resolution}
    (h : resolution.splits.Perm other.splits) : resolution.unmatched.Perm other.unmatched :=
  (h.filter _).map _

theorem noMethod?_eq (resolution : Resolution) : noMethod? resolution =
    if resolution.unmatched = [] then none
    else some (.noMethodError (ascending resolution.unmatched) resolution.splits.length) := by
  unfold noMethod? Resolution.unmatched
  split
  next h => rw [if_pos h]
  next hne => rw [if_neg hne]

theorem noMethod?_eq_some_iff {resolution : Resolution} {finding : Finding} :
    noMethod? resolution = some finding ↔ resolution.unmatched ≠ [] ∧ ∃ signatures,
      finding = .noMethodError signatures resolution.splits.length ∧
      signatures.Perm resolution.unmatched ∧
      signatures.Pairwise fun x y => (compare x y).isLE := by
  rw [noMethod?_eq, Option.ite_none_left_eq_some]
  refine and_congr_right fun _ => ⟨fun h => ?_, ?_⟩
  · exact ⟨_, (Option.some.inj h).symm, perm_ascending _, pairwise_ascending _⟩
  · rintro ⟨signatures, rfl, hperm, hpairwise⟩
    rw [eq_ascending hperm hpairwise]

namespace Strictness

variable {strictness : Strictness} {view : FrameView}

theorem judge_callResolution_congr {call other : ResolvedCall}
    (h : call.resolution.splits.Perm other.resolution.splits) :
    strictness.judge view (.callResolution call) =
      strictness.judge view (.callResolution other) := by
  have hunmatched := Resolution.unmatched_perm h
  have hnil : call.resolution.unmatched = [] ↔ other.resolution.unmatched = [] :=
    ⟨fun hnil => (hnil ▸ hunmatched).nil_eq.symm, fun hnil => (hnil ▸ hunmatched).eq_nil⟩
  simp only [judge, noMethod?_eq, hnil, ascending_congr hunmatched, h.length_eq]

theorem judge_callResolution_eq_some_iff {call : ResolvedCall} {finding : Finding} :
    strictness.judge view (.callResolution call) = some finding ↔
      strictness.looksAt view = true ∧ noMethod? call.resolution = some finding :=
  Option.ite_none_right_eq_some

end Strictness

/-- The same operation, met at the same statement with its cases in another order. -/
inductive Operation.Reordered (f : FrameId) (position : Position) :
    Operation → Operation → Prop where
  | resolveCall {call other : ResolvedCall} :
    call.resolution.splits.Perm other.resolution.splits →
    Reordered f position (.resolveCall f position call) (.resolveCall f position other)
  | evaluateCondition {types others : List Ty} : types.Perm others →
    Reordered f position (.evaluateCondition f position (.join types))
      (.evaluateCondition f position (.join others))

/-- Operations that differ in the order of their cases observe what is judged alike. -/
theorem Operation.Reordered.observing {f : FrameId} {position : Position} {op op' : Operation}
    (h : op.Reordered f position op') : ∃ o o',
      (∀ frames, op.observing? frames = some (f, position, [o]) ∧
        op'.observing? frames = some (f, position, [o'])) ∧
      ∀ (strictness : Strictness) view, strictness.judge view o = strictness.judge view o' := by
  cases h with
  | resolveCall hperm =>
    exact ⟨_, _, fun _ => ⟨rfl, rfl⟩, fun _ _ => Strictness.judge_callResolution_congr hperm⟩
  | evaluateCondition hperm =>
    refine ⟨_, _, fun _ => ⟨rfl, rfl⟩, fun _ _ => ?_⟩
    rw [Ty.join_congr fun t _ => hperm.mem_iff]

/-! ## Reports that are there -/

namespace Analysis

variable {a later : Analysis} {f : FrameId} {r r' : Frame} {position : Position}
  {op op' : Operation} {os : List Observation} {finding : Finding}

theorem WellFormed.extends_run (h : WellFormed a) (ops : List Operation) :
    a.frames.Extends (a.run ops).frames := by
  intro f r hr
  obtain ⟨r', hr', hadvances⟩ := h.advance_run ops f r hr
  exact ⟨r', hr', hadvances.sameCall⟩

theorem WellFormed.step_observing (h : WellFormed a)
    (hop : op.observing? a.frames = some (f, position, os)) (hr : a.frames.get? f = some r)
    (hw : r.ledger.phase = .writable) : ∃ answer events, a.step op = .ok answer { a with
      frames := a.frames.update f
        (Frame.observedFirst a.strictness (a.frames.callerPath f) position os)
      events } := by
  refine Analysis.step_observing hop ?_
  rw [refusal?_observing hop, Frames.refusal?_eq_none]
  exact ⟨r, hr, h.live hr hw, if_pos (.inl hw)⟩

/-- What was reported at a statement is in the ledger whatever is done afterwards. -/
theorem WellFormed.holds_run (h : WellFormed a)
    (hop : op.observing? a.frames = some (f, position, os)) (hr : a.frames.get? f = some r)
    (hw : r.ledger.phase = .writable)
    (hj : os.findSome? (a.strictness.judge r.view) = some finding) (ops : List Operation)
    (hr' : (a.run (op :: ops)).frames.get? f = some r') : r'.ledger.Holds
      (r'.reportAt ((a.run (op :: ops)).frames.callerPath f) position finding) := by
  obtain ⟨answer, events, hstep⟩ := h.step_observing hop hr hw
  rw [Frame.update_observedFirst_some hr hj] at hstep
  let ρ := r.reportAt (a.frames.callerPath f) position finding
  have hnoted : (a.after op).frames.get? f = some (r.note ρ) := by
    rw [after_ok hstep]
    exact Frames.get?_update_self hr _
  obtain ⟨old, hold, hdup⟩ := Ledger.exists_duplicates_noted r.ledger.reports ρ
  -- reports of uncaught raises are the only ones that are ever retracted
  have hlasting : old ∈ (r.note ρ).lasting := by
    obtain ⟨o, ho, hjo⟩ := List.exists_of_findSome?_eq_some hj
    refine Frame.mem_lasting.2 ⟨hold, ?_⟩
    rw [hdup.1]
    exact (Strictness.isAt_of_judge (Operation.isAt_of_observing hop o ho) hjo).kind_ne
  obtain ⟨r'', hr'', hadvances⟩ := (h.after op).advance_run ops f _ hnoted
  obtain rfl : r'' = r' := Option.some.inj (hr''.symm.trans hr')
  refine ⟨old, (Frame.mem_lasting.1 (hadvances.grows.lasting.subset hlasting)).1, ?_⟩
  have hsame : r.SameCall r'' := (Frame.sameCall_note ..).trans hadvances.sameCall
  rw [hsame.reportAt_eq,
    (h.extends_run (op :: ops)).callerPath_eq h.linked (h.run (op :: ops)).linked hr]
  exact hdup

/-- An operation whose finding is in the ledger changes nothing. -/
theorem WellFormed.step_of_holds (h : WellFormed a)
    (hop : op.observing? a.frames = some (f, position, os)) (hr : a.frames.get? f = some r)
    (hw : r.ledger.phase = .writable)
    (hholds : ∀ finding, os.findSome? (a.strictness.judge r.view) = some finding →
      r.ledger.Holds (r.reportAt (a.frames.callerPath f) position finding)) :
    ∃ answer events, a.step op = .ok answer { a with events } := by
  obtain ⟨answer, events, hstep⟩ := h.step_observing hop hr hw
  refine ⟨answer, events, ?_⟩
  cases hj : os.findSome? (a.strictness.judge r.view) with
  | none => rw [hstep, Frame.update_observedFirst_none hr hj]
  | some finding =>
    have hid : r.note (r.reportAt (a.frames.callerPath f) position finding) = id r := by
      have hdup : ∃ old ∈ r.ledger.reports, old.Duplicates _ := hholds finding hj
      rw [Frame.note, Ledger.noted, if_pos hdup]
      rfl
    rw [hstep, Frame.update_observedFirst_some hr hj, Frames.update_congr hr hid, Frames.update_id]

end Analysis

namespace Session

open Analysis (RunFrom)

variable {s : Session} {a : Analysis} {config : Config}

/-- No policy looks at the order of split cases. If it reports a call, then the signatures without a
method, in ascending order and as often as they are there, and the number of cases. In all analyses
of all sessions: a call or condition that was met in an open frame is met again with its cases in
another order, whatever happened since. If the frame is still open, then the report is there, and
nothing changes but the events. -/
theorem case_order_immaterial (hs : s.Reachable) (ha : RunFrom (s.analysis config) a) :
    (∀ (policy : Policy) view (call other : ResolvedCall),
      call.resolution.splits.Perm other.resolution.splits →
      policy.judge view (.callResolution call) = policy.judge view (.callResolution other)) ∧
    (∀ (policy : Policy) view call finding,
      policy.judge view (.callResolution call) = some finding ↔
        policy.strictness.looksAt view = true ∧ call.resolution.unmatched ≠ [] ∧ ∃ signatures,
          finding = .noMethodError signatures call.resolution.splits.length ∧
          signatures.Perm call.resolution.unmatched ∧
          signatures.Pairwise fun x y => (compare x y).isLE) ∧
    (∀ (policy : Policy) view (types others : List Ty), types.Perm others →
      policy.judge view (.condition (.join types)) =
        policy.judge view (.condition (.join others))) ∧
    ∀ f r position op op', a.frames.get? f = some r → r.ledger.phase = .writable →
      op.Reordered f position op' →
      ∀ ops r', let later := a.run (op :: ops)
        later.frames.get? f = some r' → r'.ledger.phase = .writable →
        (∀ o finding, op.observing? a.frames = some (f, position, [o]) →
          a.config.policy.judge r.view o = some finding →
          r'.ledger.Holds (r'.reportAt (later.frames.callerPath f) position finding)) ∧
        ∃ answer events, later.step op' = .ok answer { later with events } := by
  refine ⟨fun policy view call other => Strictness.judge_callResolution_congr,
    fun policy view call finding => ?_, fun policy view types others hperm => ?_, ?_⟩
  · rw [Policy.judge, Strictness.judge_callResolution_eq_some_iff, noMethod?_eq_some_iff]
  · rw [Ty.join_congr fun t _ => hperm.mem_iff]
  · intro f r position op op' hr hw hreordered ops r' later hr' hw'
    have h := (rooted_invariant.analysis hs ha).wellFormed
    obtain ⟨o, o', hop, hjudge⟩ := hreordered.observing
    have hholds : ∀ finding, a.strictness.judge r.view o = some finding →
        r'.ledger.Holds (r'.reportAt (later.frames.callerPath f) position finding) :=
      fun finding hj => h.holds_run (hop a.frames).1 hr hw (by simp [hj]) ops hr'
    refine ⟨fun o₁ finding hop₁ hj => ?_, ?_⟩
    · cases (hop a.frames).1.symm.trans hop₁
      exact hholds finding hj
    · refine (h.run (op :: ops)).step_of_holds (hop _).2 hr' hw' fun finding hj => ?_
      have hstrictness : later.strictness = a.strictness :=
        congrArg (·.policy.strictness) (h.config_run (op :: ops))
      obtain ⟨r'', hr'', hsame⟩ := h.extends_run (op :: ops) hr
      obtain rfl : r'' = r' := Option.some.inj (hr''.symm.trans hr')
      rw [List.findSome?_singleton, hstrictness, hsame.view_eq, ← hjudge] at hj
      exact hholds finding hj

/-- A call of `f`, met at one statement of the entry frame. -/
def splitCall (splits : List SplitCase) : Operation :=
  .resolveCall ⟨0⟩ ⟨"m.jl", 1⟩ ⟨⟨splits⟩, .any, none⟩

/-- Three cases, of which two have no method. -/
def twoUnmatched : List SplitCase :=
  [⟨⟨"f", [.concrete ⟨"String", []⟩]⟩, 0⟩, ⟨⟨"f", [.bool]⟩, 2⟩, ⟨⟨"f", [.any]⟩, 0⟩]

/-- Between the call and the same call with its cases in reverse, something else is reported. -/
theorem case_order_immaterial_twoUnmatched :
    let a := (({} : Session).analysis {}).run [.enterEntry ⟨"main", []⟩]
    let later := a.run [splitCall twoUnmatched, .readGlobal ⟨0⟩ ⟨"m.jl", 1⟩ "Main" "x" false]
    ({} : Session).Reachable ∧ RunFrom (({} : Session).analysis {}) a ∧
      ∃ r', later.frames.get? ⟨0⟩ = some r' ∧ r'.ledger.phase = .writable ∧
        r'.ledger.reports.map Report.finding = [
          .noMethodError [⟨"f", [.any]⟩, ⟨"f", [.concrete ⟨"String", []⟩]⟩] 3,
          .globalUndefVar "Main" "x"] ∧
        ∃ answer events, later.step (splitCall twoUnmatched.reverse) =
          .ok answer { later with events } := by
  intro a later
  have ha : RunFrom (({} : Session).analysis {}) a := .run .start fun _ _ _ => trivial
  obtain ⟨r', hr', hw', hreports⟩ : ∃ r', later.frames.get? ⟨0⟩ = some r' ∧
      r'.ledger.phase = .writable ∧ r'.ledger.reports.map Report.finding = [
        .noMethodError [⟨"f", [.any]⟩, ⟨"f", [.concrete ⟨"String", []⟩]⟩] 3,
        .globalUndefVar "Main" "x"] := ⟨_, rfl, rfl, by decide +kernel⟩
  obtain ⟨-, -, -, hagain⟩ := case_order_immaterial .start ha
  refine ⟨.start, ha, r', hr', hw', hreports, ?_⟩
  exact (hagain ⟨0⟩ _ ⟨"m.jl", 1⟩ _ _ rfl rfl (.resolveCall (List.reverse_perm _).symm) _ r' hr'
    hw').2

end Session

end FrameAudit
