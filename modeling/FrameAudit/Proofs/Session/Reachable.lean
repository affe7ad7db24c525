import FrameAudit.Session

/-! # Reachable sessions

A session starts with an empty cache. It is configured, its cache is cleared, and analyses run on it
one after the other, each of which is concluded or dropped at any point. An `Invariant` is proved
for all of them from what one operation keeps. -/

namespace FrameAudit

namespace Analysis

/-- The analysis comes from `start` by operations that are all `allowed` where they are carried
out. -/
inductive RunBy (allowed : Analysis → Operation → Prop) (start : Analysis) : Analysis → Prop where
  | start : RunBy allowed start start
  | step {a : Analysis} (op : Operation) :
    RunBy allowed start a → allowed a op → RunBy allowed start (a.after op)

/-- The analysis comes from `start` by any operations. -/
abbrev RunFrom (start : Analysis) : Analysis → Prop := RunBy (fun _ _ => True) start

theorem RunBy.run {allowed : Analysis → Operation → Prop} {start a : Analysis}
    (h : RunBy allowed start a) {ops : List Operation} (hops : ∀ op ∈ ops, ∀ a, allowed a op) :
    RunBy allowed start (a.run ops) := by
  induction ops generalizing a with
  | nil => exact h
  | cons op ops ih =>
    have hstep := h.step op (hops op List.mem_cons_self a)
    exact ih hstep fun op' hop' => hops op' (List.mem_cons_of_mem _ hop')

end Analysis

namespace Session

open Analysis (RunBy)

variable {allowed : Analysis → Operation → Prop} {s : Session} {a : Analysis} {config : Config}

/-- The session comes about by configurations, and by analyses whose operations are all
`allowed`. -/
inductive ReachableBy (allowed : Analysis → Operation → Prop) : Session → Prop where
  | start : ReachableBy allowed {}
  | configure {s : Session} (options : List (String × Json)) :
    ReachableBy allowed s → ReachableBy allowed (s.configure options).2
  | configureText {s : Session} (text : String) :
    ReachableBy allowed s → ReachableBy allowed (s.configureText text).2
  | fresh {s : Session} (inner : Policy) :
    ReachableBy allowed s → ReachableBy allowed (s.fresh inner).2
  | clearCache {s : Session} : ReachableBy allowed s → ReachableBy allowed s.clearCache
  | dropped {s : Session} {a : Analysis} (config : Config) : ReachableBy allowed s →
    RunBy allowed (s.analysis config) a → ReachableBy allowed (s.afterAnalysis a)
  | concluded {s : Session} {a : Analysis} (config : Config) : ReachableBy allowed s →
    RunBy allowed (s.analysis config) a → ReachableBy allowed (s.afterAnalysis a.conclude.2)

/-- The session comes about by any use of it. -/
abbrev Reachable : Session → Prop := ReachableBy fun _ _ => True

theorem cache_configure (s : Session) (options : List (String × Json)) :
    (s.configure options).2.cache = s.cache := by
  unfold configure
  cases Settings.ofOptions options with
  | error e => rfl
  | ok settings => cases hf : settings.fresh <;> simp [configOf, hf, fresh]

theorem cache_configureText (s : Session) (text : String) :
    (s.configureText text).2.cache = s.cache := by
  unfold configureText
  cases parseOptions text with
  | error e => rfl
  | ok options => exact cache_configure s options

/-- `C` holds of every cache and `I` of every analysis of a session, as far as one operation can
tell. -/
structure Invariant (allowed : Analysis → Operation → Prop) (C : Cache → Prop)
    (I : Analysis → Prop) : Prop where
  empty : C {}
  start : ∀ (config : Config) {cache : Cache}, C cache → I { config, cache }
  after : ∀ {a : Analysis} (op : Operation), I a → allowed a op → I (a.after op)
  cache : ∀ {a : Analysis}, I a → C a.cache

namespace Invariant

variable {C : Cache → Prop} {I : Analysis → Prop}

theorem runBy {start : Analysis} (h : Invariant allowed C I) (hstart : I start)
    (ha : RunBy allowed start a) : I a := by
  induction ha with
  | start => exact hstart
  | step op _ hop ih => exact h.after op ih hop

theorem session (h : Invariant allowed C I) (hs : ReachableBy allowed s) : C s.cache := by
  induction hs with
  | start => exact h.empty
  | configure options _ ih => rwa [cache_configure]
  | configureText text _ ih => rwa [cache_configureText]
  | fresh inner _ ih => exact ih
  | clearCache _ _ => exact h.empty
  | dropped config _ ha ih => exact h.cache (h.runBy (h.start config ih) ha)
  | concluded config _ ha ih =>
    -- what is done at the end leaves the cache as it is
    have hcache := h.cache (h.runBy (h.start config ih) ha)
    exact hcache

theorem analysis (h : Invariant allowed C I) (hs : ReachableBy allowed s)
    (ha : RunBy allowed (s.analysis config) a) : I a :=
  h.runBy (h.start config (h.session hs)) ha

end Invariant

end Session

end FrameAudit
