import FrameAudit.Analysis.Completion
import FrameAudit.Proofs.Frame.Callers
import FrameAudit.Proofs.Ledger.Noting

/-! # Changes of a frame

What the operations do to the one frame they are about, as functions on frames. None of them changes
which call the frame is of. -/

namespace FrameAudit

theorem mem_unreportedRaises {reported : List Position} {body : List Instruction}
    {site : RaiseSite} : site ∈ unreportedRaises reported body ↔
      .raise site.position site.expr ∈ body ∧ site.position ∉ reported := by
  rw [unreportedRaises, List.mem_filterMap]
  constructor
  · rintro ⟨instruction, hmem, h⟩
    cases instruction with
    | raise position expr =>
      obtain ⟨hnew, h⟩ := Option.ite_none_left_eq_some.1 h
      cases h
      exact ⟨hmem, hnew⟩
    | _ => cases h
  · rintro ⟨hmem, hnew⟩
    exact ⟨_, hmem, if_neg hnew⟩

theorem Ledger.mem_seriousPositions {l : Ledger} {position : Position} :
    position ∈ l.seriousPositions ↔
      ∃ ρ ∈ l.reports, ∃ error, ρ.finding = .seriousException error position := by
  rw [seriousPositions, List.mem_filterMap]
  refine exists_congr fun ρ => and_congr_right fun _ => ?_
  cases ρ.finding <;> simp

namespace Frame

open Frames (update_congr update_id)

variable {r : Frame} {ρ : Report}

/-- A report is noted. -/
def note (ρ : Report) (r : Frame) : Frame :=
  { r with ledger.reports := Ledger.noted r.ledger.reports ρ }

/-- The report of a finding at a statement of the frame. -/
def reportAt (r : Frame) (callers : CallPath) (position : Position) (finding : Finding) : Report :=
  ⟨callers ++ [⟨r.signature, position⟩], finding⟩

/-- What a policy of the given strictness reports about an observation is noted. -/
def observed (strictness : Strictness) (callers : CallPath) (position : Position)
    (observation : Observation) (r : Frame) : Frame :=
  match strictness.judge r.view observation with
  | none => r
  | some finding => r.note (r.reportAt callers position finding)

/-- The first finding of a policy of the given strictness among the observations is noted. -/
def observedFirst (strictness : Strictness) (callers : CallPath) (position : Position)
    (observations : List Observation) (r : Frame) : Frame :=
  match observations.findSome? (strictness.judge r.view) with
  | none => r
  | some finding => r.note (r.reportAt callers position finding)

/-- The checks for undefined locals in a body are observed. -/
def undefinedObserved (strictness : Strictness) (callers : CallPath) (body : List Instruction)
    (r : Frame) : Frame :=
  (undefChecks body).foldl
    (fun r (position, slot, definite) =>
      r.observed strictness callers position (.undefCheck slot definite)) r

/-- Uncaught raises are retracted. -/
def withoutUncaught (r : Frame) : Frame :=
  { r with
    ledger.reports := r.ledger.reports.filter fun report => report.kind ≠ .uncaughtException }

/-- Under the basic policy, a value retracts uncaught raises. -/
def retracted (strictness : Strictness) (result : Ty) (r : Frame) : Frame :=
  if strictness = .basic && !result.isBottom then r.withoutUncaught else r

/-- The raises of a body that are not reported as serious are observed. -/
def uncaughtObserved (strictness : Strictness) (callers : CallPath) (result : Ty)
    (body : List Instruction) (r : Frame) : Frame :=
  match unreportedRaises r.ledger.seriousPositions body with
  | [] => r.retracted strictness result
  | first :: rest => (r.retracted strictness result).observed strictness callers first.position
      (.uncaught (first :: rest) result)

/-- The frame takes no further reports. -/
def closed (r : Frame) : Frame := { r with ledger.phase := .settled }

/-- The frame is finished. -/
def finished (strictness : Strictness) (callers : CallPath) (result : Ty)
    (body : List Instruction) (r : Frame) : Frame :=
  ((undefinedObserved strictness callers body { r with result }).uncaughtObserved strictness
    callers result body).closed

/-- The body of the frame could not be generated. -/
def failed (callers : CallPath) (position : Position) (error : ErrorValue) (r : Frame) : Frame :=
  { (r.note (r.reportAt callers position (.generatorError error))).closed with
    aborted := true, result := .bottom }

/-- A result is published for the frame. -/
def published (strictness : Strictness) (result : Ty) (r : Frame) : Frame :=
  { r.retracted strictness result with result }

/-- A new frame is filled from the cache. -/
def restored (callers : CallPath) (call : CachedCall) (r : Frame) : Frame :=
  { r with
    result := call.result
    ledger :=
      ⟨(call.reports.map (·.rebase callers)).foldl Ledger.noted r.ledger.reports, .settled⟩ }

/-- The ledger takes no change any more. -/
def frozen (r : Frame) : Frame := { r with ledger := r.ledger.freeze }

/-! ## What stays the same -/

theorem update_observedFirst_none {frames : Frames} {f : FrameId} {strictness : Strictness}
    {callers : CallPath} {position : Position} {os : List Observation}
    (hr : frames.get? f = some r) (hj : os.findSome? (strictness.judge r.view) = none) :
    frames.update f (observedFirst strictness callers position os) = frames := by
  have hid : r.observedFirst strictness callers position os = id r := by simp [observedFirst, hj]
  rw [update_congr hr hid, update_id]

theorem update_observedFirst_some {frames : Frames} {f : FrameId} {strictness : Strictness}
    {callers : CallPath} {position : Position} {os : List Observation} {finding : Finding}
    (hr : frames.get? f = some r) (hj : os.findSome? (strictness.judge r.view) = some finding) :
    frames.update f (observedFirst strictness callers position os) =
      frames.update f (note (r.reportAt callers position finding)) :=
  update_congr hr (by simp [observedFirst, hj])

/-- Observing changes nothing but the reports. -/
theorem observed_eq (strictness : Strictness) (callers : CallPath) (position : Position)
    (observation : Observation) (r : Frame) : ∃ reports,
      r.observed strictness callers position observation =
        { r with ledger.reports := reports } := by
  unfold observed
  split
  · exact ⟨_, rfl⟩
  · exact ⟨_, rfl⟩

theorem undefinedObserved_eq (strictness : Strictness) (callers : CallPath)
    (body : List Instruction) (r : Frame) : ∃ reports,
      r.undefinedObserved strictness callers body = { r with ledger.reports := reports } := by
  unfold undefinedObserved
  induction undefChecks body generalizing r with
  | nil => exact ⟨_, rfl⟩
  | cons check checks ih =>
    obtain ⟨reports, h⟩ := observed_eq strictness callers check.1
      (.undefCheck check.2.1 check.2.2) r
    obtain ⟨reports', h'⟩ := ih (r.observed strictness callers check.1
      (.undefCheck check.2.1 check.2.2))
    exact ⟨reports', by rw [List.foldl_cons, h', h]⟩

theorem retracted_eq (strictness : Strictness) (result : Ty) (r : Frame) : ∃ reports,
    r.retracted strictness result = { r with ledger.reports := reports } := by
  unfold retracted
  split
  · exact ⟨_, rfl⟩
  · exact ⟨_, rfl⟩

theorem uncaughtObserved_eq (strictness : Strictness) (callers : CallPath) (result : Ty)
    (body : List Instruction) (r : Frame) : ∃ reports,
      r.uncaughtObserved strictness callers result body =
        { r with ledger.reports := reports } := by
  obtain ⟨reports, h⟩ := retracted_eq strictness result r
  unfold uncaughtObserved
  split
  · exact ⟨reports, h⟩
  next first rest _ =>
    obtain ⟨reports', h'⟩ := observed_eq strictness callers first.position
      (.uncaught (first :: rest) result) (r.retracted strictness result)
    exact ⟨reports', by rw [h', h]⟩

theorem finished_eq (strictness : Strictness) (callers : CallPath) (result : Ty)
    (body : List Instruction) (r : Frame) : ∃ reports,
      r.finished strictness callers result body =
        { r with result, ledger := ⟨reports, .settled⟩ } := by
  obtain ⟨reports, h⟩ := undefinedObserved_eq strictness callers body { r with result }
  obtain ⟨reports', h'⟩ := uncaughtObserved_eq strictness callers result body
    (undefinedObserved strictness callers body { r with result })
  exact ⟨reports', by rw [finished, h', h]; rfl⟩

theorem published_eq (strictness : Strictness) (result : Ty) (r : Frame) : ∃ reports,
    r.published strictness result = { r with result, ledger.reports := reports } := by
  obtain ⟨reports, h⟩ := retracted_eq strictness result r
  exact ⟨reports, by rw [published, h]⟩

@[simp]
theorem phase_finished (strictness : Strictness) (callers : CallPath) (result : Ty)
    (body : List Instruction) (r : Frame) :
    (r.finished strictness callers result body).ledger.phase = .settled := rfl

@[simp]
theorem aborted_finished (strictness : Strictness) (callers : CallPath) (result : Ty)
    (body : List Instruction) (r : Frame) :
    (r.finished strictness callers result body).aborted = r.aborted := by
  obtain ⟨_, h⟩ := finished_eq strictness callers result body r
  rw [h]

@[simp]
theorem result_finished (strictness : Strictness) (callers : CallPath) (result : Ty)
    (body : List Instruction) (r : Frame) :
    (r.finished strictness callers result body).result = result := by
  obtain ⟨_, h⟩ := finished_eq strictness callers result body r
  rw [h]

@[simp]
theorem phase_published (strictness : Strictness) (result : Ty) (r : Frame) :
    (r.published strictness result).ledger.phase = r.ledger.phase := by
  obtain ⟨_, h⟩ := published_eq strictness result r
  rw [h]

@[simp]
theorem aborted_published (strictness : Strictness) (result : Ty) (r : Frame) :
    (r.published strictness result).aborted = r.aborted := by
  obtain ⟨_, h⟩ := published_eq strictness result r
  rw [h]

theorem sameCall_note (ρ : Report) (r : Frame) : r.SameCall (r.note ρ) := ⟨rfl, rfl, rfl, rfl⟩

theorem sameCall_observed (strictness : Strictness) (callers : CallPath) (position : Position)
    (observation : Observation) (r : Frame) :
    r.SameCall (r.observed strictness callers position observation) := by
  obtain ⟨_, h⟩ := observed_eq strictness callers position observation r
  exact h ▸ ⟨rfl, rfl, rfl, rfl⟩

theorem sameCall_undefinedObserved (strictness : Strictness) (callers : CallPath)
    (body : List Instruction) (r : Frame) :
    r.SameCall (r.undefinedObserved strictness callers body) := by
  obtain ⟨_, h⟩ := undefinedObserved_eq strictness callers body r
  exact h ▸ ⟨rfl, rfl, rfl, rfl⟩

theorem sameCall_retracted (strictness : Strictness) (result : Ty) (r : Frame) :
    r.SameCall (r.retracted strictness result) := by
  obtain ⟨_, h⟩ := retracted_eq strictness result r
  exact h ▸ ⟨rfl, rfl, rfl, rfl⟩

theorem sameCall_finished (strictness : Strictness) (callers : CallPath) (result : Ty)
    (body : List Instruction) (r : Frame) :
    r.SameCall (r.finished strictness callers result body) := by
  obtain ⟨_, h⟩ := finished_eq strictness callers result body r
  exact h ▸ ⟨rfl, rfl, rfl, rfl⟩

theorem sameCall_failed (callers : CallPath) (position : Position) (error : ErrorValue)
    (r : Frame) : r.SameCall (r.failed callers position error) := ⟨rfl, rfl, rfl, rfl⟩

theorem sameCall_published (strictness : Strictness) (result : Ty) (r : Frame) :
    r.SameCall (r.published strictness result) := by
  obtain ⟨_, h⟩ := published_eq strictness result r
  exact h ▸ ⟨rfl, rfl, rfl, rfl⟩

theorem seriousPositions_note (h : ρ.kind ≠ .seriousException) :
    (r.note ρ).ledger.seriousPositions = r.ledger.seriousPositions := by
  unfold note Ledger.noted
  split
  · rfl
  · obtain ⟨path, finding⟩ := ρ
    cases finding <;> simp_all [Ledger.seriousPositions, Report.kind, Finding.kind]

/-- Checks for undefined locals do not report raises. -/
theorem seriousPositions_undefinedObserved (strictness : Strictness) (callers : CallPath)
    (body : List Instruction) (r : Frame) :
    (r.undefinedObserved strictness callers body).ledger.seriousPositions =
      r.ledger.seriousPositions := by
  unfold undefinedObserved
  induction undefChecks body generalizing r with
  | nil => rfl
  | cons check checks ih =>
    obtain ⟨position, slot, definite⟩ := check
    refine (ih (r.observed strictness callers position (.undefCheck slot definite))).trans ?_
    unfold observed
    split
    · rfl
    next finding hj =>
      obtain ⟨-, hj⟩ := Option.ite_none_right_eq_some.1 hj
      cases hj
      exact seriousPositions_note (by simp [reportAt, Report.kind, Finding.kind])

/-! ## What the reports are afterwards -/

section Reports

variable {P : Report → Prop} {strictness : Strictness} {callers : CallPath} {position : Position}
  {observation : Observation} {result : Ty} {body : List Instruction}

theorem SameCall.reportAt_eq {r r' : Frame} (h : r.SameCall r') (callers : CallPath)
    (position : Position) (finding : Finding) :
    r'.reportAt callers position finding = r.reportAt callers position finding := by
  rw [reportAt, reportAt, h.signature]

theorem forall_mem_note (h : ∀ x ∈ r.ledger.reports, P x) (hρ : P ρ) :
    ∀ x ∈ (r.note ρ).ledger.reports, P x := by
  intro x hx
  rcases Ledger.mem_noted hx with hx | rfl
  · exact h x hx
  · exact hρ

theorem forall_mem_observed (h : ∀ x ∈ r.ledger.reports, P x)
    (hP : ∀ finding, strictness.judge r.view observation = some finding →
      P (r.reportAt callers position finding)) :
    ∀ x ∈ (r.observed strictness callers position observation).ledger.reports, P x := by
  unfold observed
  split
  · exact h
  next finding hj => exact forall_mem_note h (hP finding hj)

theorem forall_mem_undefinedObserved (h : ∀ x ∈ r.ledger.reports, P x)
    (hP : ∀ position slot, P (r.reportAt callers position (.localUndefVar slot))) :
    ∀ x ∈ (r.undefinedObserved strictness callers body).ledger.reports, P x := by
  unfold undefinedObserved
  induction undefChecks body generalizing r with
  | nil => exact h
  | cons check checks ih =>
    obtain ⟨position, slot, definite⟩ := check
    refine ih (forall_mem_observed h fun finding hj => ?_) fun position' slot' => ?_
    · obtain ⟨-, hj⟩ := Option.ite_none_right_eq_some.1 hj
      cases hj
      exact hP position slot
    · rw [(sameCall_observed ..).reportAt_eq]
      exact hP position' slot'

theorem forall_mem_retracted (h : ∀ x ∈ r.ledger.reports, P x) :
    ∀ x ∈ (r.retracted strictness result).ledger.reports, P x := by
  unfold retracted
  split
  · exact fun x hx => h x (List.mem_of_mem_filter hx)
  · exact h

theorem kind_ne_of_mem_retracted (hs : strictness = .basic) (hb : result.isBottom = false) :
    ∀ x ∈ (r.retracted strictness result).ledger.reports, x.kind ≠ .uncaughtException := by
  intro x hx
  have hcond : (strictness = .basic && !result.isBottom) = true := by simp [hs, hb]
  rw [retracted, if_pos hcond] at hx
  simpa using List.of_mem_filter hx

theorem forall_mem_uncaughtObserved (h : ∀ x ∈ r.ledger.reports, P x)
    (huncaught : ∀ position, strictness = .sound ∨ result.isBottom = true →
      P (r.reportAt callers position
        (.uncaughtException (unreportedRaises r.ledger.seriousPositions body)))) :
    ∀ x ∈ (r.uncaughtObserved strictness callers result body).ledger.reports, P x := by
  unfold uncaughtObserved
  split
  · exact forall_mem_retracted h
  next first rest hraises =>
    refine forall_mem_observed (forall_mem_retracted h) fun finding hj => ?_
    obtain ⟨hs, hj⟩ := Option.ite_none_right_eq_some.1 hj
    cases hj
    rw [(sameCall_retracted ..).reportAt_eq, ← hraises]
    exact huncaught first.position hs

/-- A finished frame holds its old reports, checks for undefined locals and, unless the policy is
basic and the result a value, its raises that are not reported as serious. -/
theorem forall_mem_finished (h : ∀ x ∈ r.ledger.reports, P x)
    (hundef : ∀ position slot, P (r.reportAt callers position (.localUndefVar slot)))
    (huncaught : ∀ position, strictness = .sound ∨ result.isBottom = true →
      P (r.reportAt callers position
        (.uncaughtException (unreportedRaises r.ledger.seriousPositions body)))) :
    ∀ x ∈ (r.finished strictness callers result body).ledger.reports, P x := by
  have hsame := (show r.SameCall { r with result } from ⟨rfl, rfl, rfl, rfl⟩).trans
    (sameCall_undefinedObserved strictness callers body _)
  have h' : ∀ x ∈ (undefinedObserved strictness callers body { r with result }).ledger.reports,
      P x := forall_mem_undefinedObserved h hundef
  refine forall_mem_uncaughtObserved h' fun position hs => ?_
  rw [hsame.reportAt_eq, seriousPositions_undefinedObserved]
  exact huncaught position hs

theorem forall_mem_restored {call : CachedCall} (hr : r.ledger.reports = [])
    (h : ∀ x ∈ call.reports, P (x.rebase callers)) :
    ∀ x ∈ (r.restored callers call).ledger.reports, P x := by
  intro x hx
  rcases Ledger.mem_foldl_noted_subset hx with hx | hx
  · rw [hr] at hx
    exact absurd hx List.not_mem_nil
  · obtain ⟨y, hy, rfl⟩ := List.mem_map.1 hx
    exact h y hy

end Reports

end Frame

end FrameAudit
