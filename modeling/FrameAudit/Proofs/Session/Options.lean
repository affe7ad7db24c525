import FrameAudit.Json.Shape
import FrameAudit.Proofs.Json.Members
import FrameAudit.Proofs.Order.Bytes
import FrameAudit.Proofs.Session.Generations

/-! # Which options are taken

Whether an option is taken depends on its name and value alone (`Settings.Offends`). So options give
a configuration exactly if none of them offends, and each setting is what its option asks for. The
options are visited in ascending order of their names, which is that of their bytes, so the error is
that of the least name that offends. -/

namespace FrameAudit

namespace Settings

open Json (Ordered value? value?_concat value?_orderMembers mem_orderMembers ordered_orderMembers)

variable {s s' settings : Settings} {name : String} {value : Json} {error : OptionError}
  {members options : List (String × Json)}

/-! ## One option -/

/-- The options that are turned on or off. -/
def switches : List String :=
  ["aggressive_constant_propagation", "unoptimize_throw_blocks", "inlining", "fresh"]

/-- What is wrong with an option. -/
inductive Offends (name : String) (value : Json) : OptionError → Prop where
  | unknown : name ∉ switches → name ≠ "report_pass" → Offends name value (.unknown name)
  | notBoolean : name ∈ switches → (∀ b, value ≠ .bool b) →
    Offends name value (.notBoolean name value)
  | inlining : name = "inlining" → value = .bool true → Offends name value .inliningRequested
  | notString : name = "report_pass" → (∀ text, value ≠ .string text) →
    Offends name value (.notString name value)
  | unknownPolicy {text : String} : name = "report_pass" → value = .string text →
    text ≠ "basic" → text ≠ "sound" → Offends name value (.unknownPolicy name text)

/-- The policy that a value names. -/
def policy? : Json → Option Policy
  | .string "basic" => some .basic
  | .string "sound" => some .sound
  | _ => none

/-- The settings after an option was taken. -/
inductive Taken (s : Settings) (name : String) (value : Json) : Settings → Prop where
  | aggressive {b : Bool} : name = "aggressive_constant_propagation" → value = .bool b →
    Taken s name value { s with tuning.aggressiveConstantPropagation := b }
  | unoptimize {b : Bool} : name = "unoptimize_throw_blocks" → value = .bool b →
    Taken s name value { s with tuning.unoptimizeThrowBlocks := b }
  | inlining : name = "inlining" → value = .bool false → Taken s name value s
  | policy {policy : Policy} : name = "report_pass" → policy? value = some policy →
    Taken s name value { s with policy }
  | fresh {b : Bool} : name = "fresh" → value = .bool b → Taken s name value { s with fresh := b }

theorem ofName?_eq_none {text : String} (hbasic : text ≠ "basic") (hsound : text ≠ "sound") :
    Policy.ofName? text = none := by
  unfold Policy.ofName?
  split
  · exact absurd rfl hbasic
  · exact absurd rfl hsound
  · rfl

/-- An option that offends is not taken, whatever was taken before it. -/
theorem Offends.apply_eq (h : Offends name value error) (s : Settings) :
    s.apply (name, value) = .error error := by
  cases h with
  | unknown hswitches hpass =>
    simp only [apply]
    split
    case h_4 => exact absurd rfl hpass
    case h_6 => rfl
    all_goals exact absurd (by decide) hswitches
  | notBoolean hmem hvalue =>
    simp only [switches, List.mem_cons, List.not_mem_nil, or_false] at hmem
    cases value with
    | bool b => exact absurd rfl (hvalue b)
    | _ => rcases hmem with rfl | rfl | rfl | rfl <;> rfl
  | inlining hname hvalue =>
    subst hname hvalue
    rfl
  | notString hname hvalue =>
    subst hname
    cases value with
    | string text => exact absurd rfl (hvalue text)
    | _ => rfl
  | unknownPolicy hname hvalue hbasic hsound =>
    subst hname hvalue
    simp only [apply, policyNamed, ofName?_eq_none hbasic hsound]
    rfl

theorem Offends.unique {error' : OptionError} (h : Offends name value error)
    (h' : Offends name value error') : error = error' :=
  Except.error.inj ((h.apply_eq {}).symm.trans (h'.apply_eq {}))

/-- An option that does not offend is taken. -/
theorem exists_taken (s : Settings) (h : ∀ error, ¬Offends name value error) :
    ∃ s', s.apply (name, value) = .ok s' ∧ Taken s name value s' := by
  by_cases hpass : name = "report_pass"
  · subst hpass
    cases value with
    | string text =>
      by_cases hbasic : text = "basic"
      · subst hbasic
        exact ⟨_, rfl, .policy rfl rfl⟩
      by_cases hsound : text = "sound"
      · subst hsound
        exact ⟨_, rfl, .policy rfl rfl⟩
      exact absurd (.unknownPolicy rfl rfl hbasic hsound) (h _)
    | _ => exact absurd (.notString rfl nofun) (h _)
  · have hmem : name ∈ switches := by
      by_contra hmem
      exact h _ (.unknown hmem hpass)
    obtain ⟨b, rfl⟩ : ∃ b, value = .bool b := by
      by_contra hvalue
      exact h _ (.notBoolean hmem (not_exists.1 hvalue))
    simp only [switches, List.mem_cons, List.not_mem_nil, or_false] at hmem
    rcases hmem with rfl | rfl | rfl | rfl
    · exact ⟨_, rfl, .aggressive rfl rfl⟩
    · exact ⟨_, rfl, .unoptimize rfl rfl⟩
    · cases b with
      | true => exact absurd (.inlining rfl rfl) (h _)
      | false => exact ⟨_, rfl, .inlining rfl rfl⟩
    · exact ⟨_, rfl, .fresh rfl rfl⟩

theorem apply_eq_error_iff : s.apply (name, value) = .error error ↔ Offends name value error := by
  refine ⟨fun h => ?_, fun h => h.apply_eq s⟩
  obtain ⟨error', hoffends⟩ : ∃ error', Offends name value error' := by
    by_contra hnone
    obtain ⟨s', hok, -⟩ := exists_taken s (not_exists.1 hnone)
    cases h.symm.trans hok
  cases h.symm.trans (hoffends.apply_eq s)
  exact hoffends

theorem not_offends_of_apply (h : s.apply (name, value) = .ok s') (error : OptionError) :
    ¬Offends name value error := by
  intro hoffends
  cases h.symm.trans (hoffends.apply_eq s)

theorem taken_of_apply (h : s.apply (name, value) = .ok s') : Taken s name value s' := by
  obtain ⟨s'', hok, htaken⟩ := exists_taken s (not_offends_of_apply h)
  cases h.symm.trans hok
  exact htaken

/-! ## Settings -/

/-- Whether an option is turned on. -/
def switched (name : String) (default : Bool) (options : List (String × Json)) : Bool :=
  ((value? name options).bind Json.bool?).getD default

/-- The policy that the options name. -/
def namedPolicy (options : List (String × Json)) : Policy :=
  ((value? "report_pass" options).bind policy?).getD .basic

/-- The settings that the options ask for. -/
def asked (options : List (String × Json)) : Settings where
  tuning.aggressiveConstantPropagation := switched "aggressive_constant_propagation" true options
  tuning.unoptimizeThrowBlocks := switched "unoptimize_throw_blocks" false options
  policy := namedPolicy options
  fresh := switched "fresh" false options

theorem asked_orderMembers (options : List (String × Json)) :
    asked (Json.orderMembers options) = asked options := by
  simp only [asked, switched, namedPolicy, value?_orderMembers]

/-- Each option sets one setting at most, so the others stay as they were asked for before. -/
theorem Taken.eq_asked (h : Taken (asked members) name value s') :
    s' = asked (members ++ [(name, value)]) := by
  cases h with
  | aggressive hname hvalue | unoptimize hname hvalue | inlining hname hvalue
  | fresh hname hvalue =>
    subst hname hvalue
    simp [asked, switched, namedPolicy, value?_concat, Json.bool?]
  | policy hname hvalue =>
    subst hname
    simp [asked, switched, namedPolicy, value?_concat, hvalue]

theorem eq_asked_of_foldlM (h : members.foldlM apply {} = .ok s') : s' = asked members := by
  induction members using List.reverseRecOn generalizing s' with
  | nil =>
    cases h
    rfl
  | append_singleton members m ih =>
    obtain ⟨name, value⟩ := m
    rw [List.foldlM_append] at h
    obtain ⟨s₁, hbefore, hlast⟩ := exists_of_bind_eq_ok h
    obtain rfl := ih hbefore
    exact (taken_of_apply (by simpa using hlast)).eq_asked

theorem ofOptions_eq (h : ofOptions options = .ok settings) : settings = asked options :=
  (eq_asked_of_foldlM h).trans (asked_orderMembers options)

/-! ## All options -/

/-- The options are known, and each has a value that it can have. -/
structure Accepted (options : List (String × Json)) : Prop where
  known : ∀ name value, value? name options = some value →
    name ∈ switches ∨ name = "report_pass"
  boolean : ∀ name ∈ switches, ∀ value, value? name options = some value → ∃ b, value = .bool b
  inlining : value? "inlining" options ≠ some (.bool true)
  policy : ∀ value, value? "report_pass" options = some value →
    value = .string "basic" ∨ value = .string "sound"

theorem accepted_iff : Accepted options ↔
    ∀ name value error, value? name options = some value → ¬Offends name value error := by
  constructor
  · intro h name value error hvalue herror
    cases herror with
    | unknown hswitches hpass =>
      rcases h.known name value hvalue with hmem | hname
      · exact hswitches hmem
      · exact hpass hname
    | notBoolean hmem hv =>
      obtain ⟨b, hb⟩ := h.boolean name hmem value hvalue
      exact hv b hb
    | inlining hname hv =>
      subst hname hv
      exact h.inlining hvalue
    | notString hname hv =>
      subst hname
      rcases h.policy value hvalue with hb | hs
      · exact hv _ hb
      · exact hv _ hs
    | unknownPolicy hname hv hbasic hsound =>
      subst hname hv
      rcases h.policy _ hvalue with hb | hs
      · exact hbasic (Json.string.inj hb)
      · exact hsound (Json.string.inj hs)
  · intro h
    refine ⟨fun name value hvalue => ?_, fun name hmem value hvalue => ?_, fun hvalue => ?_,
      fun value hvalue => ?_⟩
    · by_contra hname
      obtain ⟨hswitches, hpass⟩ := not_or.1 hname
      exact h name value _ hvalue (.unknown hswitches hpass)
    · by_contra hv
      exact h name value _ hvalue (.notBoolean hmem (not_exists.1 hv))
    · exact h _ _ _ hvalue (.inlining rfl rfl)
    · cases value with
      | string text =>
        by_contra hv
        obtain ⟨hbasic, hsound⟩ := not_or.1 hv
        exact h _ _ _ hvalue (.unknownPolicy rfl rfl (fun ht => hbasic (congrArg _ ht))
          fun ht => hsound (congrArg _ ht))
      | _ => exact absurd (.notString rfl nofun) (h _ _ _ hvalue)

/-- The error of the least name that offends, in the order of bytes. -/
structure LeastOffence (options : List (String × Json)) (name : String) (error : OptionError) :
    Prop where
  offends : ∃ value, value? name options = some value ∧ Offends name value error
  least : ∀ other value error, value? other options = some value → Offends other value error →
    utf8Bytes name ≤ utf8Bytes other

theorem LeastOffence.unique {name' : String} {error' : OptionError}
    (h : LeastOffence options name error) (h' : LeastOffence options name' error') :
    error = error' := by
  obtain ⟨value, hvalue, hoffends⟩ := h.offends
  obtain ⟨value', hvalue', hoffends'⟩ := h'.offends
  have hname : name = name' := String.le_antisymm
    (utf8Bytes_le_iff.1 (h.least _ _ _ hvalue' hoffends'))
    (utf8Bytes_le_iff.1 (h'.least _ _ _ hvalue hoffends))
  subst hname
  cases hvalue.symm.trans hvalue'
  exact hoffends.unique hoffends'

/-- If all options were taken, then none offends. -/
theorem not_offends_of_foldlM (h : members.foldlM apply s = .ok s') :
    ∀ m ∈ members, ∀ error, ¬Offends m.1 m.2 error := by
  induction members generalizing s with
  | nil => nofun
  | cons m members ih =>
    rw [List.foldlM_cons] at h
    obtain ⟨s₁, hfirst, hrest⟩ := exists_of_bind_eq_ok h
    intro m' hm'
    rcases List.mem_cons.1 hm' with rfl | hm'
    · exact not_offends_of_apply hfirst
    · exact ih hrest m' hm'

/-- If not all options were taken, then the first that offends gives the error. -/
theorem first_offends_of_foldlM (hm : Ordered members)
    (h : members.foldlM apply s = .error error) : ∃ name value, (name, value) ∈ members ∧
      Offends name value error ∧ ∀ m ∈ members, ∀ error, Offends m.1 m.2 error → name ≤ m.1 := by
  induction members generalizing s with
  | nil => cases h
  | cons m members ih =>
    obtain ⟨name, value⟩ := m
    obtain ⟨hlt, hrest⟩ := List.pairwise_cons.1 hm
    rw [List.foldlM_cons] at h
    cases hfirst : s.apply (name, value) with
    | error error' =>
      rw [hfirst] at h
      cases h
      refine ⟨name, value, List.mem_cons_self, apply_eq_error_iff.1 hfirst, fun m hm _ _ => ?_⟩
      rcases List.mem_cons.1 hm with rfl | hm
      · exact String.le_refl _
      · exact String.not_lt.1 (String.lt_asymm (hlt m hm))
    | ok s₁ =>
      rw [hfirst] at h
      obtain ⟨name', value', hmem, hoffends, hleast⟩ := ih hrest h
      refine ⟨name', value', List.mem_cons_of_mem _ hmem, hoffends, fun m hm error' herror => ?_⟩
      rcases List.mem_cons.1 hm with rfl | hm
      · exact absurd herror (not_offends_of_apply hfirst error')
      · exact hleast m hm error' herror

theorem leastOffence_of_ofOptions (h : ofOptions options = .error error) :
    ∃ name, LeastOffence options name error := by
  obtain ⟨name, value, hmem, hoffends, hleast⟩ :=
    first_offends_of_foldlM (ordered_orderMembers options) h
  refine ⟨name, ⟨value, mem_orderMembers.1 hmem, hoffends⟩, fun other value' error' hv ho => ?_⟩
  exact utf8Bytes_le_iff.2 (hleast (other, value') (mem_orderMembers.2 hv) error' ho)

theorem accepted_of_ofOptions (h : ofOptions options = .ok settings) : Accepted options :=
  accepted_iff.2 fun name value error hvalue =>
    not_offends_of_foldlM h (name, value) (mem_orderMembers.2 hvalue) error

theorem exists_ofOptions_ok_iff :
    (∃ settings, ofOptions options = .ok settings) ↔ Accepted options := by
  refine ⟨fun ⟨_, h⟩ => accepted_of_ofOptions h, fun haccepted => ?_⟩
  cases h : ofOptions options with
  | ok settings => exact ⟨settings, rfl⟩
  | error error =>
    obtain ⟨name, ⟨value, hvalue, hoffends⟩, -⟩ := leastOffence_of_ofOptions h
    exact absurd hoffends (accepted_iff.1 haccepted name value error hvalue)

theorem ofOptions_eq_error_iff :
    ofOptions options = .error error ↔ ∃ name, LeastOffence options name error := by
  refine ⟨leastOffence_of_ofOptions, fun ⟨name, hname⟩ => ?_⟩
  cases h : ofOptions options with
  | ok settings =>
    obtain ⟨value, hvalue, hoffends⟩ := hname.offends
    exact absurd hoffends (accepted_iff.1 (accepted_of_ofOptions h) name value error hvalue)
  | error error' =>
    obtain ⟨name', hname'⟩ := leastOffence_of_ofOptions h
    rw [hname.unique hname']

end Settings

namespace Session

open Settings (Accepted LeastOffence switched namedPolicy)

variable {s : Session} {options : List (String × Json)} {config : Config} {error : OptionError}

theorem configOf_spec (s : Session) (settings : Settings) :
    (s.configOf settings).1.tuning = settings.tuning ∧
      if settings.fresh then
        (s.configOf settings).1.policy = .fresh settings.policy s.generation ∧
          (s.configOf settings).2 = { s with generation := s.generation + 1 }
      else (s.configOf settings).1.policy = settings.policy ∧ (s.configOf settings).2 = s := by
  unfold configOf
  cases settings.fresh with
  | true => exact ⟨rfl, rfl, rfl⟩
  | false => exact ⟨rfl, rfl, rfl⟩

theorem exists_configure_ok_iff : (∃ config, (s.configure options).1 = .ok config) ↔
    ∃ settings, Settings.ofOptions options = .ok settings := by
  unfold configure
  cases Settings.ofOptions options with
  | ok settings => simp
  | error error => simp

theorem configOf_of_configure_ok (h : (s.configure options).1 = .ok config) :
    ∃ settings, Settings.ofOptions options = .ok settings ∧
      s.configOf settings = (config, (s.configure options).2) := by
  unfold configure at h ⊢
  cases hsettings : Settings.ofOptions options with
  | ok settings =>
    rw [hsettings] at h
    cases h
    exact ⟨settings, rfl, rfl⟩
  | error error =>
    rw [hsettings] at h
    cases h

theorem configure_eq_error_iff :
    (s.configure options).1 = .error error ↔ Settings.ofOptions options = .error error := by
  unfold configure
  cases Settings.ofOptions options with
  | ok settings => simp
  | error error => simp

/-- Options give a configuration exactly if they are accepted, whatever was done with the session.
Then each flag is as the option says or as by default, and the policy is the named one. It is
wrapped exactly if the options ask for that, and only then the session changes, by taking the next
generation. Otherwise the error is that of the least name that offends, whatever the other options
are, and the session stays as it is. -/
theorem configure_by_grammar (s : Session) (options : List (String × Json)) :
    ((∃ config, (s.configure options).1 = .ok config) ↔ Accepted options) ∧
    (∀ config, (s.configure options).1 = .ok config →
      config.tuning = ⟨switched "aggressive_constant_propagation" true options,
        switched "unoptimize_throw_blocks" false options⟩ ∧
      if switched "fresh" false options then
        config.policy = .fresh (namedPolicy options) s.generation ∧
          (s.configure options).2 = { s with generation := s.generation + 1 }
      else config.policy = namedPolicy options ∧ (s.configure options).2 = s) ∧
    ∀ error, ((s.configure options).1 = .error error ↔ ∃ name, LeastOffence options name error) ∧
      ((s.configure options).1 = .error error → (s.configure options).2 = s) := by
  refine ⟨?_, fun config h => ?_, fun error => ⟨?_, configure_error⟩⟩
  · rw [exists_configure_ok_iff, Settings.exists_ofOptions_ok_iff]
  · obtain ⟨settings, hsettings, hconfig⟩ := configOf_of_configure_ok h
    have hspec := s.configOf_spec settings
    rw [hconfig, Settings.ofOptions_eq hsettings] at hspec
    exact hspec
  · rw [configure_eq_error_iff, Settings.ofOptions_eq_error_iff]

/-- Three options offend. By name, the first of them is the one given last. -/
def threeOffences : List (String × Json) :=
  [("é", .null), ("report_pass", .string "paranoid"), ("fresh", .bool true),
   ("inlining", .bool true)]

def freshSound : List (String × Json) := [("report_pass", .string "sound"), ("fresh", .bool true)]

/-- The generation is not taken by options of which one offends, though the option that asks for it
is visited first. -/
theorem configure_by_grammar_threeOffences :
    let s : Session := { generation := 3 }
    (s.configure threeOffences).1 = .error .inliningRequested ∧
      (∃ name, LeastOffence threeOffences name .inliningRequested) ∧
      (s.configure threeOffences).2 = s ∧
      ∃ config, (s.configure freshSound).1 = .ok config ∧ config.policy = .fresh .sound 3 ∧
        (s.configure freshSound).2 = { generation := 4 } := by
  intro s
  obtain ⟨hleast, hsame⟩ := (configure_by_grammar s threeOffences).2.2 .inliningRequested
  obtain ⟨config, hconfig⟩ : ∃ config, (s.configure freshSound).1 = .ok config := ⟨_, rfl⟩
  obtain ⟨-, hwrapped⟩ := (configure_by_grammar s freshSound).2.1 config hconfig
  exact ⟨rfl, hleast.1 rfl, hsame rfl, config, hconfig, hwrapped⟩

end Session

end FrameAudit
