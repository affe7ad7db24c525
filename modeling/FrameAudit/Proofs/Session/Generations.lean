import FrameAudit.Session

/-! # Generations

A session wraps policies when it is asked for a fresh one and when a configuration asks to be fresh.
A `History` is a session together with what came out of it. Whatever was done with the session, the
policy that was wrapped as the `n`-th carries generation `n`, and those inside it carry smaller
ones. So a configuration shares a partition with that policy only if its own policy is a copy. -/

namespace FrameAudit

/-- The generations of a policy and of the policies inside it, outermost first. -/
def Policy.generations : Policy → List Nat
  | .basic | .sound => []
  | .fresh inner generation => generation :: inner.generations

/-! ## Options name policies without generations -/

namespace Settings

theorem exists_of_bind_eq_ok {α β : Type} {x : Except OptionError α}
    {next : α → Except OptionError β} {b : β} (h : x >>= next = .ok b) :
    ∃ a, x = .ok a ∧ next a = .ok b := by
  cases x with
  | error error => cases h
  | ok a => exact ⟨a, rfl, h⟩

theorem generations_policyNamed {option : String} {value : Json} {policy : Policy}
    (h : policyNamed option value = .ok policy) : policy.generations = [] := by
  have hname : ∀ {name}, Policy.ofName? name = some policy → policy.generations = [] := by
    intro name hname
    unfold Policy.ofName? at hname
    split at hname <;> cases hname <;> rfl
  unfold policyNamed at h
  split at h
  · split at h
    case h_1 hsome =>
      cases h
      exact hname hsome
    case h_2 => cases h
  · cases h

theorem generations_apply {s s' : Settings} {option : String × Json} (h : s.apply option = .ok s')
    (hs : s.policy.generations = []) : s'.policy.generations = [] := by
  obtain ⟨name, value⟩ := option
  simp only [apply] at h
  split at h
  case h_3 =>
    obtain ⟨requested, -, h⟩ := exists_of_bind_eq_ok h
    split at h
    · cases h
    · cases h
      exact hs
  case h_4 =>
    obtain ⟨policy, hpolicy, h⟩ := exists_of_bind_eq_ok h
    cases h
    exact generations_policyNamed hpolicy
  case h_6 => cases h
  all_goals
    obtain ⟨b, -, h⟩ := exists_of_bind_eq_ok h
    cases h
    exact hs

theorem generations_ofOptions {options : List (String × Json)} {settings : Settings}
    (h : ofOptions options = .ok settings) : settings.policy.generations = [] := by
  have hfold : ∀ (members : List (String × Json)) (s : Settings), s.policy.generations = [] →
      members.foldlM apply s = .ok settings → settings.policy.generations = [] := by
    intro members
    induction members with
    | nil =>
      intro s hs h
      cases h
      exact hs
    | cons member members ih =>
      intro s hs h
      rw [List.foldlM_cons] at h
      obtain ⟨s', hs', h⟩ := exists_of_bind_eq_ok h
      exact ih s' (generations_apply hs' hs) h
  exact hfold _ {} rfl h

/-- The policy that the settings ask to be wrapped. -/
def wraps? (settings : Settings) : Option Policy :=
  if settings.fresh then some settings.policy else none

end Settings

namespace Session

/-- A failure to configure changes nothing. -/
theorem configure_error {s : Session} {options : List (String × Json)} {error : OptionError}
    (h : (s.configure options).1 = .error error) : (s.configure options).2 = s := by
  unfold configure at h ⊢
  split at h
  · cases h
  · rfl

theorem configureText_error {s : Session} {text : String} {error : OptionError}
    (h : (s.configureText text).1 = .error error) : (s.configureText text).2 = s := by
  unfold configureText at h ⊢
  split at h
  · exact configure_error h
  · rfl

/-- Where a policy of a session comes from. The copies of a policy have its source. -/
inductive Source where
  | basic
  | sound
  /-- The policy that was wrapped as the `n`-th, counted from 0. -/
  | wrapped (n : Nat)
deriving DecidableEq

/-- What is done with a session. -/
inductive Action where
  | configure (options : List (String × Json))
  | configureText (text : String)
  /-- Wraps a policy of the session. -/
  | fresh (inner : Source)
  /-- Makes a configuration of a policy of the session. -/
  | build (tuning : Tuning) (policy : Source)
  | analyse (config : Config) (ops : List Operation)
  | clearCache

/-- A session, the policies that it wrapped, in order, and the configurations that were made, each
with the source of its policy. -/
structure History where
  session : Session := {}
  wrapped : List Policy := []
  configs : List (Config × Source) := []

namespace History

variable {h : History} {source : Source} {policy inner : Policy}

def policy? (h : History) : Source → Option Policy
  | .basic => some .basic
  | .sound => some .sound
  | .wrapped n => h.wrapped[n]?

def wrap (h : History) (inner : Policy) : History :=
  let (policy, session) := h.session.fresh inner
  { h with session, wrapped := h.wrapped ++ [policy] }

def build (h : History) (tuning : Tuning) (policy : Policy) (source : Source) : History :=
  { h with configs := h.configs ++ [(⟨tuning, policy⟩, source)] }

/-- Takes what a configuration gave. It has wrapped a policy if its policy is a fresh one. -/
def configured (h : History) : Except OptionError Config × Session → History
  | (.error _, session) => { h with session }
  | (.ok config, session) =>
    match config.policy with
    | .basic => { h with session, configs := h.configs ++ [(config, .basic)] }
    | .sound => { h with session, configs := h.configs ++ [(config, .sound)] }
    | .fresh _ _ =>
      { session
        wrapped := h.wrapped ++ [config.policy]
        configs := h.configs ++ [(config, .wrapped h.wrapped.length)] }

/-- What comes of an action. Policies that the session does not have cannot be wrapped or used. -/
def after (h : History) : Action → History
  | .configure options => h.configured (h.session.configure options)
  | .configureText text => h.configured (h.session.configureText text)
  | .fresh source =>
    match h.policy? source with
    | some inner => h.wrap inner
    | none => h
  | .build tuning source =>
    match h.policy? source with
    | some policy => h.build tuning policy source
    | none => h
  | .analyse config ops =>
    { h with session := h.session.afterAnalysis ((h.session.analysis config).run ops) }
  | .clearCache => { h with session := h.session.clearCache }

def run (h : History) (actions : List Action) : History := actions.foldl after h

/-- The policy that an action asks to be wrapped. -/
def wraps? (h : History) : Action → Option Policy
  | .configure options => (Settings.ofOptions options).toOption.bind Settings.wraps?
  | .configureText text => (parseOptions text).toOption.bind fun options =>
      (Settings.ofOptions options).toOption.bind Settings.wraps?
  | .fresh source => h.policy? source
  | .build _ _ | .analyse _ _ | .clearCache => none

/-- What an action can do, for the policy that it wraps. -/
inductive Change (h : History) : Option Policy → History → Prop where
  | cached (cache : Cache) : Change h none { h with session := { h.session with cache } }
  | built (tuning : Tuning) (source : Source) {policy : Policy} : h.policy? source = some policy →
    Change h none (h.build tuning policy source)
  | wrapped (source : Source) {inner : Policy} : h.policy? source = some inner →
    Change h (some inner) (h.wrap inner)
  | configured (tuning : Tuning) (source : Source) {inner : Policy} :
    h.policy? source = some inner → Change h (some inner)
      ((h.wrap inner).build tuning (.fresh inner h.session.generation)
        (.wrapped h.wrapped.length))

theorem change_configure (h : History) (options : List (String × Json)) :
    Change h (h.wraps? (.configure options)) (h.after (.configure options)) := by
  simp only [after, wraps?, configure]
  cases hs : Settings.ofOptions options with
  | error error => exact .cached h.session.cache
  | ok settings =>
    have hplain := Settings.generations_ofOptions hs
    obtain ⟨tuning, policy, fresh⟩ := settings
    cases policy with
    | fresh inner generation => cases hplain
    | basic =>
      cases fresh with
      | false => exact .built tuning .basic rfl
      | true => exact .configured tuning .basic rfl
    | sound =>
      cases fresh with
      | false => exact .built tuning .sound rfl
      | true => exact .configured tuning .sound rfl

theorem change (h : History) (action : Action) : Change h (h.wraps? action) (h.after action) := by
  cases action with
  | configure options => exact h.change_configure options
  | configureText text =>
    simp only [after, wraps?, configureText]
    cases parseOptions text with
    | error error => exact .cached h.session.cache
    | ok options => exact h.change_configure options
  | fresh source =>
    simp only [after, wraps?]
    cases hp : h.policy? source with
    | none => exact .cached h.session.cache
    | some inner => exact .wrapped source hp
  | build tuning source =>
    simp only [after, wraps?]
    cases hp : h.policy? source with
    | none => exact .cached h.session.cache
    | some policy => exact .built tuning source hp
  | analyse config ops => exact .cached _
  | clearCache => exact .cached _

/-! ## Policies are numbered in the order of their wrapping -/

/-- The policies are numbered by their outermost generations, and the configurations have the
policies that their sources say. -/
structure Numbered (h : History) : Prop where
  length : h.wrapped.length = h.session.generation
  wrapped : ∀ {n : Nat} {policy : Policy}, h.wrapped[n]? = some policy →
    ∃ inner, policy = .fresh inner n ∧ ∀ g ∈ inner.generations, g < n
  configs : ∀ {config : Config} {source : Source}, (config, source) ∈ h.configs →
    h.policy? source = some config.policy

theorem policy?_of_prefix {h' : History} (hp : h.wrapped <+: h'.wrapped)
    (hs : h.policy? source = some policy) : h'.policy? source = some policy := by
  cases source with
  | basic | sound => exact hs
  | wrapped n =>
    obtain ⟨more, hmore⟩ := hp
    obtain ⟨hn, -⟩ := List.getElem?_eq_some_iff.1 hs
    rw [policy?, ← hmore, List.getElem?_append_left hn]
    exact hs

namespace Numbered

theorem start : Numbered {} where
  length := rfl
  wrapped hn := by simp at hn
  configs hc := by simp at hc

/-- Every generation of a policy of the session is below the counter. -/
theorem lt_generation (hn : Numbered h) (hs : h.policy? source = some policy) :
    ∀ g ∈ policy.generations, g < h.session.generation := by
  cases source with
  | basic | sound =>
    cases hs
    simp [Policy.generations]
  | wrapped n =>
    obtain ⟨inner, rfl, hinner⟩ := hn.wrapped hs
    obtain ⟨hlt, -⟩ := List.getElem?_eq_some_iff.1 hs
    rw [hn.length] at hlt
    intro g hg
    rcases List.mem_cons.1 hg with rfl | hg
    · exact hlt
    · exact Nat.lt_trans (hinner g hg) hlt

/-- A policy has one source if it is a fresh one. -/
theorem source_eq {n : Nat} (hn : Numbered h) (hs : h.policy? source = some (.fresh inner n)) :
    source = .wrapped n := by
  cases source with
  | basic | sound => cases hs
  | wrapped m =>
    obtain ⟨_, heq, -⟩ := hn.wrapped hs
    cases heq
    rfl

theorem wrap (hn : Numbered h) (hs : h.policy? source = some inner) : Numbered (h.wrap inner) where
  length := by simp [History.wrap, fresh, hn.length]
  wrapped {n policy} hp := by
    have hinner := hn.lt_generation hs
    rw [← hn.length] at hinner
    change (h.wrapped ++ [.fresh inner h.session.generation])[n]? = some policy at hp
    rw [List.getElem?_append] at hp
    split at hp
    · exact hn.wrapped hp
    · obtain ⟨hz, hpolicy⟩ := List.getElem?_eq_some_iff.1 hp
      have hlast : n = h.wrapped.length := by
        rw [List.length_singleton] at hz
        omega
      subst hlast
      simp only [Nat.sub_self, List.getElem_cons_zero] at hpolicy
      exact ⟨inner, hn.length ▸ hpolicy.symm, hinner⟩
  configs hc := policy?_of_prefix (List.prefix_append ..) (hn.configs hc)

theorem build (hn : Numbered h) (tuning : Tuning) (hs : h.policy? source = some policy) :
    Numbered (h.build tuning policy source) where
  length := hn.length
  wrapped := hn.wrapped
  configs {config source'} hc := by
    rcases List.mem_append.1 hc with hc | hc
    · exact hn.configs hc
    · cases List.mem_singleton.1 hc
      exact hs

theorem after (hn : Numbered h) (action : Action) : Numbered (h.after action) := by
  have hchange := h.change action
  generalize h.wraps? action = wraps at hchange
  generalize h.after action = h' at hchange
  cases hchange with
  | cached cache => exact ⟨hn.length, hn.wrapped, hn.configs⟩
  | built tuning source hs => exact hn.build tuning hs
  | wrapped source hs => exact hn.wrap hs
  | configured tuning source hs =>
    apply (hn.wrap hs).build
    exact List.getElem?_concat_length

theorem run (hn : Numbered h) (actions : List Action) : Numbered (h.run actions) := by
  induction actions generalizing h with
  | nil => exact hn
  | cons action actions ih => exact ih (hn.after action)

end Numbered

theorem wrapped_after (h : History) (action : Action) : (h.after action).wrapped =
    h.wrapped ++ ((h.wraps? action).map (Policy.fresh · h.session.generation)).toList := by
  have hchange := h.change action
  generalize h.wraps? action = wraps at hchange
  generalize h.after action = h' at hchange
  cases hchange with
  | cached | built => exact (List.append_nil _).symm
  | wrapped | configured => rfl

theorem prefix_run (h : History) (actions : List Action) :
    h.wrapped <+: (h.run actions).wrapped := by
  induction actions generalizing h with
  | nil => exact List.prefix_rfl
  | cons action actions ih =>
    have hafter : h.wrapped <+: (h.after action).wrapped := by
      rw [h.wrapped_after action]
      exact List.prefix_append ..
    exact hafter.trans (ih _)

/-- A configuration shares the partition of a fresh policy if and only if it has a copy of that
policy, and the same tuning. -/
theorem Numbered.partition_eq_iff {n : Nat} {config : Config} (hn : Numbered h)
    (hp : h.wrapped[n]? = some (.fresh inner n)) (hc : (config, source) ∈ h.configs)
    (tuning : Tuning) :
    config.partition = Config.partition ⟨tuning, .fresh inner n⟩ ↔
      source = .wrapped n ∧ config.tuning = tuning := by
  have hs := hn.configs hc
  obtain ⟨tuning', policy⟩ := config
  constructor
  · intro heq
    cases heq
    exact ⟨hn.source_eq hs, rfl⟩
  · rintro ⟨rfl, rfl⟩
    have hpolicy : some policy = some (.fresh inner n) := hs.symm.trans hp
    cases hpolicy
    rfl

/-- No configuration has the partition of a policy that is yet to be wrapped: it would hold a
generation that is not below the counter. -/
theorem Numbered.partition_ne_next {config : Config} (hn : Numbered h)
    (hc : (config, source) ∈ h.configs) (inner : Policy) (tuning : Tuning) :
    config.partition ≠ Config.partition ⟨tuning, .fresh inner h.session.generation⟩ := by
  intro heq
  have hpolicy : config.policy = .fresh inner h.session.generation :=
    congrArg Partition.policy heq
  have hmem : h.session.generation ∈ config.policy.generations := hpolicy ▸ List.mem_cons_self
  exact Nat.lt_irrefl _ (hn.lt_generation (hn.configs hc) _ hmem)

/-- Whatever was done with a session, the policy that was wrapped as the `n`-th carries generation
`n`, every generation of a policy is below the counter, and a failed configuration leaves the
session as it was. A policy that is wrapped next takes the counter as its generation. Whatever the
tuning, it shares no partition with a configuration that was made before, nor with one that is ever
made later of a policy that is not its copy. -/
theorem generations_never_shared (actions : List Action) :
    let h := ({} : History).run actions
    h.wrapped.length = h.session.generation ∧
    (∀ (n : Nat) (policy : Policy), h.wrapped[n]? = some policy →
      ∃ inner, policy = .fresh inner n) ∧
    (∀ source policy, h.policy? source = some policy →
      ∀ g ∈ policy.generations, g < h.session.generation) ∧
    (∀ config source, (config, source) ∈ h.configs →
      h.policy? source = some config.policy ∧
      ∀ g ∈ config.policy.generations, g < h.session.generation) ∧
    (∀ options error, (h.session.configure options).1 = .error error →
      (h.session.configure options).2 = h.session) ∧
    (∀ text error, (h.session.configureText text).1 = .error error →
      (h.session.configureText text).2 = h.session) ∧
    (∀ action, h.wraps? action = none → (h.after action).wrapped = h.wrapped) ∧
    ∀ action inner, h.wraps? action = some inner →
      (h.after action).wrapped = h.wrapped ++ [.fresh inner h.session.generation] ∧
      ∀ tuning,
        (∀ config source, (config, source) ∈ h.configs →
          config.partition ≠ Config.partition ⟨tuning, .fresh inner h.session.generation⟩) ∧
        ∀ later config source, (config, source) ∈ ((h.after action).run later).configs →
          (config.partition = Config.partition ⟨tuning, .fresh inner h.session.generation⟩ ↔
            source = .wrapped h.session.generation ∧ config.tuning = tuning) := by
  intro h
  have hn : Numbered h := Numbered.start.run actions
  refine ⟨hn.length, fun n policy hp => ?_, fun _ _ => hn.lt_generation,
    fun config source hc => ⟨hn.configs hc, hn.lt_generation (hn.configs hc)⟩,
    fun _ _ => configure_error, fun _ _ => configureText_error, fun action hw => ?_,
    fun action inner hw => ?_⟩
  · obtain ⟨inner, hpolicy, -⟩ := hn.wrapped hp
    exact ⟨inner, hpolicy⟩
  · rw [wrapped_after, hw]
    exact List.append_nil _
  · have hwrapped : (h.after action).wrapped =
        h.wrapped ++ [.fresh inner h.session.generation] := by
      rw [wrapped_after, hw]
      rfl
    have hnew : (h.after action).policy? (.wrapped h.session.generation) =
        some (.fresh inner h.session.generation) := by
      rw [policy?, hwrapped, ← hn.length]
      exact List.getElem?_concat_length
    refine ⟨hwrapped, fun tuning => ⟨fun config source hc => hn.partition_ne_next hc inner tuning,
      fun later config source hc => ?_⟩⟩
    have hlater := policy?_of_prefix (prefix_run (h.after action) later) hnew
    exact ((hn.after action).run later).partition_eq_iff hlater hc tuning

/-- Policies are wrapped by all means, one of them twice, and once the settings are refused after
they asked to be fresh. -/
def wrappingTwice : List Action :=
  [.configure [("fresh", .bool true)],
   .configureText "\x7b\"fresh\": true, \"report_pass\": \"sound\"\x7d",
   .configure [("fresh", .bool true), ("report_pass", .null)],
   .fresh .sound,
   .fresh (.wrapped 2),
   .build ⟨false, true⟩ (.wrapped 1)]

theorem generations_never_shared_wrappingTwice :
    let h := ({} : History).run wrappingTwice
    h.wrapped = [.fresh .basic 0, .fresh .sound 1, .fresh .sound 2, .fresh (.fresh .sound 2) 3] ∧
      h.session.generation = 4 ∧
      (h.session.configure [("fresh", .bool true), ("report_pass", .null)]).2 = h.session ∧
      (h.after (.fresh (.wrapped 2))).wrapped = h.wrapped ++ [.fresh (.fresh .sound 2) 4] ∧
      (∀ config source, (config, source) ∈ h.configs →
        config.partition ≠ Config.partition ⟨{}, .fresh (.fresh .sound 2) 4⟩) ∧
      ∃ config, (config, .wrapped 3) ∈
          ((h.after (.fresh (.wrapped 2))).run [.build {} (.wrapped 3)]).configs ∧
        config.partition ≠ Config.partition ⟨{}, .fresh (.fresh .sound 2) 4⟩ := by
  have hgeneration : (({} : History).run wrappingTwice).session.generation = 4 := by decide +kernel
  have hwraps : (({} : History).run wrappingTwice).wraps? (.fresh (.wrapped 2)) =
      some (.fresh .sound 2) := by decide +kernel
  have hrefused : ((({} : History).run wrappingTwice).session.configure
      [("fresh", .bool true), ("report_pass", .null)]).1 =
        .error (.notString "report_pass" .null) := rfl
  have hbuilt : (((({} : History).run wrappingTwice).after (.fresh (.wrapped 2))).run
      [.build {} (.wrapped 3)]).configs.getLast? =
        some (⟨{}, .fresh (.fresh .sound 2) 3⟩, .wrapped 3) := by decide +kernel
  have hmem := List.mem_of_getLast? hbuilt
  obtain ⟨-, -, -, -, hconfigure, -, -, hwrap⟩ := generations_never_shared wrappingTwice
  obtain ⟨hwrapped, hshared⟩ := hwrap _ _ hwraps
  obtain ⟨hbefore, hlater⟩ := hshared {}
  rw [hgeneration] at hwrapped hbefore hlater
  refine ⟨by decide +kernel, hgeneration, hconfigure _ _ hrefused, hwrapped, hbefore, _, hmem,
    fun heq => ?_⟩
  cases ((hlater _ _ _ hmem).1 heq).1

end History

end Session

end FrameAudit
