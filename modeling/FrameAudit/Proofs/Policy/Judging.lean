import FrameAudit.Policy.Judgement
import FrameAudit.Ty.Join

/-! # What policies report

A policy reports an observation as a finding of its kind. What is observed at a statement is never
reported as an uncaught raise or an undefined local, and as a serious raise only of that statement.

If the basic policy reports an observation, so does the sound policy: the same finding, except that
of a condition more types may be no booleans for it. That needs the condition types to be canonical:
a bottom inside of a union cannot be a boolean, but is a subtype of the booleans. -/

namespace FrameAudit

/-- A policy reports an observation as a finding of its kind. -/
theorem Strictness.kind_of_judge {strictness : Strictness} {view : FrameView}
    {observation : Observation} {finding : Finding}
    (h : strictness.judge view observation = some finding) : finding.kind = observation.kind := by
  cases observation with
  | uncaught raises result =>
    cases raises with
    | nil => cases h
    | cons =>
      obtain ⟨-, h⟩ := Option.ite_none_right_eq_some.1 h
      cases h
      rfl
  | _ =>
    simp only [judge, noMethod?, nonBoolean?, serious?] at h
    grind [Finding.kind, Observation.kind]

/-- The observation can be made at a statement: it is not of undefined locals or uncaught raises,
which are observed at the end of a frame, and a raise is at that statement. -/
def Observation.IsAt (position : Position) : Observation → Prop
  | .undefCheck _ _ | .uncaught _ _ => False
  | .raise _ place => place = position
  | _ => True

/-- The finding can be reported at a statement. -/
def Finding.IsAt (position : Position) : Finding → Prop
  | .localUndefVar _ | .uncaughtException _ => False
  | .seriousException _ place => place = position
  | _ => True

theorem Observation.IsAt.kind_ne {o : Observation} {position : Position} (h : o.IsAt position) :
    o.kind ≠ .uncaughtException := by
  cases o <;> simp_all [IsAt, kind]

theorem Finding.IsAt.kind_ne {finding : Finding} {position : Position} (h : finding.IsAt position) :
    finding.kind ≠ .uncaughtException := by
  cases finding <;> simp_all [IsAt, kind]

theorem Finding.IsAt.kind_ne_localUndefVar {finding : Finding} {position : Position}
    (h : finding.IsAt position) : finding.kind ≠ .localUndefVar := by
  cases finding <;> simp_all [IsAt, kind]

theorem Strictness.isAt_of_judge {strictness : Strictness} {view : FrameView} {o : Observation}
    {finding : Finding} {position : Position} (ho : o.IsAt position)
    (h : strictness.judge view o = some finding) : finding.IsAt position := by
  have hkind := kind_of_judge h
  cases o with
  | undefCheck | uncaught => exact ho.elim
  | raise thrown place =>
    obtain ⟨-, h⟩ := Option.ite_none_right_eq_some.1 h
    unfold serious? at h
    split at h
    · obtain ⟨-, h⟩ := Option.ite_none_right_eq_some.1 h
      cases h
      exact ho
    · cases h
  | _ => cases finding <;> simp_all [Finding.kind, Observation.kind, Finding.IsAt]

/-! ## From the basic to the sound policy -/

/-- The finding says at least what another one says: it is the same, or lists further types of the
same condition that are no booleans. -/
inductive Finding.Within : Finding → Finding → Prop where
  | same (finding : Finding) : Within finding finding
  | nonBoolean {types types' : List Ty} (splits : Nat) : types ≠ [] → types.Sublist types' →
    Within (.nonBooleanCond types splits) (.nonBooleanCond types' splits)

theorem Finding.Within.kind_eq {d d' : Finding} (h : d.Within d') : d'.kind = d.kind := by
  cases h <;> rfl

/-- The condition type that is observed, if any, is canonical. -/
def Observation.Canonical : Observation → Prop
  | .condition observed => observed.Canonical
  | _ => True

theorem nonBoolean?_eq_some {observed : Ty} {fails : Ty → Bool} {d : Finding} :
    nonBoolean? observed fails = some d ↔ observed.components.filter fails ≠ [] ∧
      d = .nonBooleanCond (observed.components.filter fails) observed.components.length := by
  unfold nonBoolean?
  cases observed.components.filter fails with
  | nil => simp
  | cons t types => simp [eq_comm]

/-- More types fail a stronger test. -/
theorem nonBoolean?_within {observed : Ty} {fails fails' : Ty → Bool} {d : Finding}
    (hsub : ∀ t ∈ observed.components, fails t = true → fails' t = true)
    (h : nonBoolean? observed fails = some d) :
    ∃ d', nonBoolean? observed fails' = some d' ∧ d.Within d' := by
  obtain ⟨hne, rfl⟩ := nonBoolean?_eq_some.1 h
  have hsublist :
      (observed.components.filter fails).Sublist (observed.components.filter fails') := by
    have hfilter : observed.components.filter fails =
        (observed.components.filter fails').filter fails := by
      rw [List.filter_filter]
      refine List.filter_congr fun t ht => ?_
      cases hf : fails t with
      | false => rfl
      | true => simp [hsub t ht hf]
    rw [hfilter]
    exact List.filter_sublist
  refine ⟨_, nonBoolean?_eq_some.2 ⟨fun hnil => ?_, rfl⟩, .nonBoolean _ hne hsublist⟩
  rw [hnil] at hsublist
  exact hne (List.sublist_nil.1 hsublist)

namespace Strictness

variable {view : FrameView} {o : Observation} {d : Finding}

theorem looksAt_sound (view : FrameView) : sound.looksAt view = true := rfl

/-- What the sound policy looks at in every frame, and the basic policy only in some. -/
private theorem judged_of_looked {found : Option Finding}
    (h : (if basic.looksAt view then found else none) = some d) :
    ∃ d', (if sound.looksAt view then found else none) = some d' ∧ d.Within d' :=
  ⟨d, by rw [if_pos (looksAt_sound view)]; exact (Option.ite_none_right_eq_some.1 h).2, .same d⟩

theorem judge_within (hc : o.Canonical) (h : basic.judge view o = some d) :
    ∃ d', sound.judge view o = some d' ∧ d.Within d' := by
  cases o with
  | callResolution | raise => exact judged_of_looked h
  | undefCheck slot definite =>
    obtain ⟨-, hd⟩ := Option.ite_none_right_eq_some.1 h
    exact ⟨d, hd, .same d⟩
  | uncaught raises result =>
    cases raises with
    | nil => cases h
    | cons first rest =>
      obtain ⟨-, hd⟩ := Option.ite_none_right_eq_some.1 h
      exact ⟨d, hd, .same d⟩
  | globalReference scope name resolved =>
    obtain ⟨hres, hd⟩ := Option.ite_none_left_eq_some.1 h
    refine ⟨d, Option.ite_none_left_eq_some.2 ⟨?_, hd⟩, .same d⟩
    simp_all
  | condition observed =>
    obtain ⟨hlook, hd⟩ := Option.ite_none_left_eq_some.1 h
    have hb : observed.isBottom = false := by simp_all
    have hguard : ¬(observed.isBottom || !sound.looksAt view) = true := by
      simp [hb, looksAt_sound]
    have hsub : ∀ t ∈ observed.components, (!t.mayBeBool) = true → (!t.isBoolSubtype) = true := by
      intro t ht hmay
      cases hs : t.isBoolSubtype with
      | false => rfl
      | true => simp [Ty.Canonical.mayBeBool_of_mem_components hc hb ht hs] at hmay
    obtain ⟨d', hd', hwithin⟩ := nonBoolean?_within hsub hd
    exact ⟨d', Option.ite_none_left_eq_some.2 ⟨hguard, hd'⟩, hwithin⟩
  | _ => exact ⟨d, h, .same d⟩

/-- The finding of a condition: the components that fail a test, and the number of all of them. -/
theorem judge_condition {strictness : Strictness} {observed : Ty}
    (h : strictness.judge view (.condition observed) = some d) :
    ∃ types, d = .nonBooleanCond types observed.components.length ∧ types ≠ [] ∧
      types.Sublist observed.components := by
  obtain ⟨-, hd⟩ := Option.ite_none_left_eq_some.1 h
  obtain ⟨hne, rfl⟩ := nonBoolean?_eq_some.1 hd
  exact ⟨_, rfl, hne, List.filter_sublist⟩

end Strictness

namespace Policy

/-- The policy inside of fresh ones of the given generations, the innermost first. -/
def wrapped (policy : Policy) (generations : List Nat) : Policy := generations.foldl .fresh policy

@[simp]
theorem strictness_wrapped (policy : Policy) (generations : List Nat) :
    (policy.wrapped generations).strictness = policy.strictness := by
  induction generations generalizing policy with
  | nil => rfl
  | cons generation generations ih => exact ih (.fresh policy generation)

variable {view : FrameView} {o : Observation} {d : Finding}

/-- Whatever is wrapped around them, if the basic policy reports an observation, then so does the
sound policy. Both findings are of the kind of the observation, and they are the same unless it is
of a condition. Then they tell the same number of components, and the types that the basic policy
lists are among those that the sound policy lists, all in the order of the components. -/
theorem sound_judge_of_basic_judge (inner outer : List Nat) (hc : o.Canonical)
    (h : (basic.wrapped inner).judge view o = some d) :
    ∃ d', (sound.wrapped outer).judge view o = some d' ∧
      d.kind = o.kind ∧ d'.kind = o.kind ∧
      (o.kind ≠ .nonBooleanCond → d' = d) ∧
      ∀ observed, o = .condition observed → ∃ types types',
        d = .nonBooleanCond types observed.components.length ∧
        d' = .nonBooleanCond types' observed.components.length ∧
        types ≠ [] ∧ types.Sublist types' ∧ types'.Sublist observed.components := by
  simp only [judge, strictness_wrapped] at h ⊢
  obtain ⟨d', h', hwithin⟩ := Strictness.judge_within hc h
  have hkind := Strictness.kind_of_judge h
  refine ⟨d', h', hkind, Strictness.kind_of_judge h', fun hne => ?_, ?_⟩
  · cases hwithin with
    | same => rfl
    | nonBoolean splits _ _ => exact absurd hkind.symm hne
  · rintro observed rfl
    obtain ⟨types, rfl, hne, -⟩ := Strictness.judge_condition h
    obtain ⟨types', rfl, -, hsublist⟩ := Strictness.judge_condition h'
    refine ⟨types, types', rfl, rfl, hne, ?_, hsublist⟩
    cases hwithin with
    | same => exact .refl types
    | nonBoolean _ _ hsub => exact hsub

/-- A condition that may be a boolean, an integer or some number. -/
def mixedCondition : Ty :=
  .union [.bool, .concrete ⟨"Int64", []⟩, .abstract "Number" true]

/-- The basic policy reports the integer, the sound policy the number as well. -/
theorem sound_judge_of_basic_judge_mixedCondition :
    let view : FrameView := ⟨⟨"main", []⟩, true⟩
    mixedCondition.Canonical ∧
      (basic.wrapped [3, 5]).judge view (.condition mixedCondition) =
        some (.nonBooleanCond [.concrete ⟨"Int64", []⟩] 3) ∧
      (sound.wrapped [4]).judge view (.condition mixedCondition) =
        some (.nonBooleanCond [.concrete ⟨"Int64", []⟩, .abstract "Number" true] 3) ∧
      [Ty.concrete ⟨"Int64", []⟩].Sublist [.concrete ⟨"Int64", []⟩, .abstract "Number" true] ∧
      [Ty.concrete ⟨"Int64", []⟩, .abstract "Number" true].Sublist mixedCondition.components := by
  intro view
  have hc : mixedCondition.Canonical := by decide +kernel
  have hbasic : (basic.wrapped [3, 5]).judge view (.condition mixedCondition) =
      some (.nonBooleanCond [.concrete ⟨"Int64", []⟩] 3) := by decide +kernel
  have hsound : (sound.wrapped [4]).judge view (.condition mixedCondition) =
      some (.nonBooleanCond [.concrete ⟨"Int64", []⟩, .abstract "Number" true] 3) := by
    decide +kernel
  obtain ⟨d', h', -, -, -, hcondition⟩ :=
    sound_judge_of_basic_judge [3, 5] [4] (o := .condition mixedCondition) hc hbasic
  obtain ⟨types, types', hd, hd', -, hsub, hcomponents⟩ := hcondition _ rfl
  cases h'.symm.trans hsound
  cases hd
  cases hd'
  exact ⟨hc, hbasic, hsound, hsub, hcomponents⟩

end Policy

end FrameAudit
