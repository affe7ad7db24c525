import FrameAudit.Proofs.Analysis.Step

/-! # Primitive operations that fail

Inference goes on with the type that evaluating an intrinsic gives back. If that type is bottom,
nothing can come after the intrinsic, and the ledger of the frame says why: the field is missing,
the divisor is zero, or the builtin has no result for its arguments. The first two are known from
the arguments alone (`Intrinsic.failure?`), whatever was observed, and they stop inference also
where the same was reported before. -/

namespace FrameAudit

/-- How the arguments make an intrinsic fail: its field is missing from the first one, or the second
one, by which it divides, is zero. -/
def Intrinsic.failure? (op : Intrinsic) (argTypes : List Ty) : Option Finding :=
  match op.role with
  | .fieldAccess field => argTypes[0]?.bind fun object =>
      if object.field field = .absent then some (.noFieldError object field) else none
  | .integerDivision =>
    if argTypes[1]? = some (.const (.int 0)) then some .divideError else none
  | .other => none

/-- The ledger holds a report of the kind at the path. -/
def Ledger.HasAt (l : Ledger) (path : CallPath) (kind : ReportKind) : Prop :=
  ∃ ρ ∈ l.reports, ρ.path = path ∧ ρ.kind = kind

theorem Ledger.noted_eq_append (reports : List Report) (ρ : Report) : ∃ added,
    noted reports ρ = reports ++ added ∧ added.length ≤ 1 ∧ ∀ x ∈ added, x = ρ := by
  unfold noted
  split
  · exact ⟨[], by simp⟩
  · exact ⟨[ρ], by simp⟩

theorem Ty.constant?_eq_some {t : Ty} {value : Constant} :
    t.constant? = some value ↔ t = .const value := by
  cases t <;> simp [constant?]

namespace Intrinsic

variable {op : Intrinsic} {argTypes : List Ty} {finding : Finding}

/-- Policies find in the arguments what makes the intrinsic fail. -/
theorem findSome?_judge_observations (strictness : Strictness) (view : FrameView) (op : Intrinsic)
    (argTypes : List Ty) :
    (op.role.observations argTypes).findSome? (strictness.judge view) = op.failure? argTypes := by
  unfold failure?
  cases op.role with
  | fieldAccess field =>
    cases argTypes with
    | nil => rfl
    | cons object rest => simp [Role.observations, Strictness.judge]
  | integerDivision =>
    rcases argTypes with _ | ⟨dividend, _ | ⟨divisor, rest⟩⟩
    · rfl
    · rfl
    · simp [Role.observations, Strictness.judge, Ty.constant?_eq_some]
  | other => rfl

theorem kind_of_failure? (h : op.failure? argTypes = some finding) :
    finding.kind = .noFieldError ∨ finding.kind = .divideError := by
  unfold failure? at h
  split at h
  · obtain ⟨object, -, h⟩ := Option.bind_eq_some_iff.1 h
    obtain ⟨-, h⟩ := Option.ite_none_right_eq_some.1 h
    exact .inl (Option.some.inj h ▸ rfl)
  · obtain ⟨-, h⟩ := Option.ite_none_right_eq_some.1 h
    exact .inr (Option.some.inj h ▸ rfl)
  · cases h

end Intrinsic

namespace Frame

/-- A finding is reported at its statement once it was noted, now or before. -/
theorem hasAt_note_reportAt (r : Frame) (callers : CallPath) (position : Position)
    (finding : Finding) :
    (r.note (r.reportAt callers position finding)).ledger.HasAt
      (callers ++ [⟨r.signature, position⟩]) finding.kind := by
  obtain ⟨ρ, hρ, hdup⟩ :=
    Ledger.exists_duplicates_noted r.ledger.reports (r.reportAt callers position finding)
  exact ⟨ρ, hρ, hdup.2.1, hdup.1⟩

end Frame

namespace Analysis

variable {a a' : Analysis} {f : FrameId} {r r' : Frame} {position : Position} {op : Intrinsic}
  {argTypes : List Ty} {observed : Ty} {finding : Finding} {path : CallPath}

/-! ## Evaluating an intrinsic -/

section Evaluate

variable (position : Position) (observed : Ty)

theorem run_evaluateIntrinsic_failing (hr : a.frames.get? f = some r) (ha : r.aborted = false)
    (hw : r.ledger.phase = .writable) (hm : op.modeled = true)
    (hf : op.failure? argTypes = some finding) : ∃ events,
      (evaluateIntrinsic f position op argTypes observed).run a = .ok .bottom { a with
        frames := a.frames.update f
          (Frame.note (r.reportAt (a.frames.callerPath f) position finding))
        events } := by
  rw [← Intrinsic.findSome?_judge_observations a.strictness r.view] at hf
  obtain ⟨isNew, events, hrole⟩ := run_observeFirst_recorded position hr ha hw hf
  rw [← run_observeRole] at hrole
  refine ⟨events, ?_⟩
  simp only [evaluateIntrinsic, hm, if_true, run_bind_ok hrole, Option.isSome_some,
    EStateM.run_pure]

/-- Unless the arguments make the intrinsic fail, it is left to observe the result. -/
theorem run_evaluateIntrinsic_modeled (hr : a.frames.get? f = some r) (ha : r.aborted = false)
    (hm : op.modeled = true) (hf : op.failure? argTypes = none) : ∃ events, ∀ answer a',
      (observe f position (.builtinResult op argTypes observed)).run { a with events } =
        .ok answer a' →
      (evaluateIntrinsic f position op argTypes observed).run a = .ok observed a' := by
  rw [← Intrinsic.findSome?_judge_observations a.strictness r.view] at hf
  obtain ⟨events, hrole⟩ := run_observeFirst_declined position hr ha hf
  rw [← run_observeRole] at hrole
  refine ⟨events, fun answer a' hobserve => ?_⟩
  simp only [evaluateIntrinsic, hm, if_true, run_bind_ok hrole, Option.isSome_none,
    Bool.false_eq_true, if_false, run_bind_ok (run_discard_ok hobserve), EStateM.run_pure]

theorem run_evaluateIntrinsic_bottom (hr : a.frames.get? f = some r) (ha : r.aborted = false)
    (hw : r.ledger.phase = .writable) (hm : op.modeled = true)
    (hf : op.failure? argTypes = none) (hb : observed.isBottom = true) : ∃ events,
      (evaluateIntrinsic f position op argTypes observed).run a = .ok observed { a with
        frames := a.frames.update f (Frame.note (r.reportAt (a.frames.callerPath f) position
          (.invalidBuiltinCall op.name argTypes)))
        events } := by
  have hj : a.strictness.judge r.view (.builtinResult op argTypes observed) =
      some (.invalidBuiltinCall op.name argTypes) := if_pos hb
  obtain ⟨events, hrun⟩ := run_evaluateIntrinsic_modeled position observed hr ha hm hf
  obtain ⟨isNew, events', hobserve⟩ := run_observe_recorded position (s := { a with events })
    hr ha hw hj
  exact ⟨events', hrun _ _ hobserve⟩

theorem run_evaluateIntrinsic_value (hr : a.frames.get? f = some r) (ha : r.aborted = false)
    (hm : op.modeled = true) (hf : op.failure? argTypes = none)
    (hb : observed.isBottom = false) : ∃ events,
      (evaluateIntrinsic f position op argTypes observed).run a =
        .ok observed { a with events } := by
  have hj : a.strictness.judge r.view (.builtinResult op argTypes observed) = none :=
    if_neg (by simp [hb])
  obtain ⟨events, hrun⟩ := run_evaluateIntrinsic_modeled position observed hr ha hm hf
  obtain ⟨events', hobserve⟩ := run_observe_declined position (s := { a with events }) hr ha hj
  exact ⟨events', hrun _ _ hobserve⟩

theorem run_evaluateIntrinsic_unmodeled (hr : a.frames.get? f = some r) (ha : r.aborted = false)
    (hw : r.ledger.phase = .writable) (hm : op.modeled = false) : ∃ events,
      (evaluateIntrinsic f position op argTypes observed).run a = .ok observed { a with
        frames := a.frames.update f (Frame.note (r.reportAt (a.frames.callerPath f) position
          (.unimplementedBuiltinCall op.name argTypes)))
        events } := by
  have hj : a.strictness.judge r.view (.unmodeledBuiltin op argTypes) =
      some (.unimplementedBuiltinCall op.name argTypes) := rfl
  obtain ⟨isNew, events, hobserve⟩ := run_observe_recorded position hr ha hw hj
  refine ⟨events, ?_⟩
  simp only [evaluateIntrinsic, hm, Bool.false_eq_true, if_false,
    run_bind_ok (run_discard_ok hobserve), EStateM.run_pure]

end Evaluate

/-! ## What comes of it -/

/-- From `a` to `a'` at most one report is added, at the path, and to the frame `f` only, which was
`r` and is `r'`. Apart from the events nothing else changes. -/
structure Notes (a a' : Analysis) (f : FrameId) (r r' : Frame) (path : CallPath) : Prop where
  rest : a' = { a with frames := a'.frames, events := a'.events }
  frame : a'.frames.get? f = some r'
  others : ∀ g, g ≠ f → a'.frames.get? g = a.frames.get? g
  reports : ∃ added, r' = { r with ledger.reports := r.ledger.reports ++ added } ∧
    added.length ≤ 1 ∧ ∀ ρ ∈ added, ρ.path = path

theorem notes_nothing (hr : a.frames.get? f = some r) (path : CallPath) (events : List Event) :
    Notes a { a with events } f r r path where
  rest := rfl
  frame := hr
  others _ _ := rfl
  reports := ⟨[], by simp⟩

theorem notes_note (hr : a.frames.get? f = some r) (position : Position) (finding : Finding)
    (events : List Event) :
    Notes a { a with
      frames := a.frames.update f
        (Frame.note (r.reportAt (a.frames.callerPath f) position finding))
      events } f r (r.note (r.reportAt (a.frames.callerPath f) position finding))
      (a.frames.callerPath f ++ [⟨r.signature, position⟩]) where
  rest := rfl
  frame := Frames.get?_update_self hr _
  others _ hg := Frames.get?_update_of_ne hg _
  reports := by
    obtain ⟨added, hadded, hlength, hall⟩ := Ledger.noted_eq_append r.ledger.reports
      (r.reportAt (a.frames.callerPath f) position finding)
    refine ⟨added, by rw [Frame.note, hadded], hlength, fun ρ hρ => ?_⟩
    rw [hall ρ hρ, Frame.reportAt]

/-- Evaluating an intrinsic in a live frame that takes reports succeeds and adds at most one report
at the statement. The policy finds in the arguments what makes the intrinsic fail; then the type to
go on with is bottom. If it is bottom at all, the failure is reported at the statement, and
otherwise nothing changes and the type is the observed one. An intrinsic without a model is reported
as such, and the type is the observed one. -/
theorem impossible_intrinsic_explained (hr : a.frames.get? f = some r) (ha : r.aborted = false)
    (hw : r.ledger.phase = .writable) (position : Position) (op : Intrinsic) (argTypes : List Ty)
    (observed : Ty) :
    let path := a.frames.callerPath f ++ [⟨r.signature, position⟩]
    (op.role.observations argTypes).findSome? (a.config.policy.judge r.view) =
      op.failure? argTypes ∧
    ∃ type a' r', a.step (.evaluateIntrinsic f position op argTypes observed) =
        .ok (.type type) a' ∧
      Notes a a' f r r' path ∧
      (op.modeled = true →
        (type.isBottom = true → r'.ledger.HasAt path .noFieldError ∨
          r'.ledger.HasAt path .divideError ∨ r'.ledger.HasAt path .invalidBuiltinCall) ∧
        (type.isBottom = false → a' = { a with events := a'.events } ∧ type = observed) ∧
        ∀ finding, op.failure? argTypes = some finding →
          type = .bottom ∧ r'.ledger.HasAt path finding.kind) ∧
      (op.modeled = false →
        type = observed ∧ r'.ledger.HasAt path .unimplementedBuiltinCall) := by
  intro path
  refine ⟨Intrinsic.findSome?_judge_observations a.strictness r.view op argTypes, ?_⟩
  cases hm : op.modeled with
  | false =>
    obtain ⟨events, hrun⟩ := run_evaluateIntrinsic_unmodeled position observed hr ha hw hm
    have hat := r.hasAt_note_reportAt (a.frames.callerPath f) position
      (.unimplementedBuiltinCall op.name argTypes)
    exact ⟨observed, _, _, step_ok rfl hrun, notes_note hr _ _ _, nofun, fun _ => ⟨rfl, hat⟩⟩
  | true =>
    cases hf : op.failure? argTypes with
    | some finding =>
      obtain ⟨events, hrun⟩ := run_evaluateIntrinsic_failing position observed hr ha hw hm hf
      have hat := r.hasAt_note_reportAt (a.frames.callerPath f) position finding
      refine ⟨.bottom, _, _, step_ok rfl hrun, notes_note hr _ _ _, fun _ => ⟨fun _ => ?_, nofun,
        ?_⟩, nofun⟩
      · rcases Intrinsic.kind_of_failure? hf with hkind | hkind
        · exact .inl (hkind ▸ hat)
        · exact .inr (.inl (hkind ▸ hat))
      · rintro _ ⟨⟩
        exact ⟨rfl, hat⟩
    | none =>
      cases hb : observed.isBottom with
      | true =>
        obtain ⟨events, hrun⟩ := run_evaluateIntrinsic_bottom position observed hr ha hw hm hf hb
        have hat := r.hasAt_note_reportAt (a.frames.callerPath f) position
          (.invalidBuiltinCall op.name argTypes)
        refine ⟨observed, _, _, step_ok rfl hrun, notes_note hr _ _ _,
          fun _ => ⟨fun _ => .inr (.inr hat), fun hv => ?_, nofun⟩, nofun⟩
        cases hb.symm.trans hv
      | false =>
        obtain ⟨events, hrun⟩ := run_evaluateIntrinsic_value position observed hr ha hm hf hb
        refine ⟨observed, _, r, step_ok rfl hrun, notes_nothing hr _ _,
          fun _ => ⟨fun hv => ?_, fun _ => ⟨rfl, rfl⟩, nofun⟩, nofun⟩
        cases hb.symm.trans hv

/-- The entry frame reads a field that a record does not have. -/
def missingField : Operation :=
  .evaluateIntrinsic ⟨0⟩ ⟨"m.jl", 1⟩ ⟨"getfield", .fieldAccess "y", true⟩
    [.concrete ⟨"Point", ["x"]⟩] .any

/-- Reading it again is reported no second time, and still there is nothing to go on with. -/
theorem impossible_intrinsic_explained_missingField :
    let a := ({ config := {} } : Analysis).run [.enterEntry ⟨"main", []⟩, missingField]
    let path : CallPath := [⟨⟨"main", []⟩, ⟨"m.jl", 1⟩⟩]
    let ρ : Report := ⟨path, .noFieldError (.concrete ⟨"Point", ["x"]⟩) "y"⟩
    ∃ r a' r', a.frames.get? ⟨0⟩ = some r ∧ r.aborted = false ∧ r.ledger = ⟨[ρ], .writable⟩ ∧
      a.step missingField = .ok (.type .bottom) a' ∧ Notes a a' ⟨0⟩ r r' path ∧
      r'.ledger.HasAt path .noFieldError ∧ a'.frames = a.frames := by
  intro a path ρ
  obtain ⟨-, type, a', r', hstep, hnotes, hmodeled, -⟩ :=
    impossible_intrinsic_explained (a := a) (f := ⟨0⟩) rfl rfl rfl ⟨"m.jl", 1⟩
      ⟨"getfield", .fieldAccess "y", true⟩ [.concrete ⟨"Point", ["x"]⟩] .any
  obtain ⟨rfl, hat⟩ := (hmodeled rfl).2.2 ρ.finding rfl
  have hframes : (leaves (a.step missingField)).frames = a.frames := by decide +kernel
  refine ⟨_, a', r', rfl, rfl, by decide +kernel, hstep, hnotes, hat, ?_⟩
  rw [← hframes, missingField, hstep, leaves]

end Analysis

end FrameAudit
