import FrameAudit.Analysis.Outcome
import FrameAudit.Config.Options

/-! # Sessions

A session is what its analyses share: the cache, and the generation that the next fresh policy
takes. -/

namespace FrameAudit

structure Session where
  cache : Cache := {}
  generation : Nat := 0
deriving DecidableEq

namespace Session

/-- Wraps a policy so that no policy made before it, and none made later in another way, shares its
cached results. -/
def fresh (s : Session) (inner : Policy) : Policy × Session :=
  (.fresh inner s.generation, { s with generation := s.generation + 1 })

/-- The configuration that settings ask for. -/
def configOf (s : Session) (settings : Settings) : Config × Session :=
  if settings.fresh then
    let (policy, s) := s.fresh settings.policy
    (⟨settings.tuning, policy⟩, s)
  else (⟨settings.tuning, settings.policy⟩, s)

/-- The configuration of a map of options. -/
def configure (s : Session) (options : List (String × Json)) :
    Except OptionError Config × Session :=
  match Settings.ofOptions options with
  | .ok settings =>
    let (config, s) := s.configOf settings
    (.ok config, s)
  | .error error => (.error error, s)

/-- The configuration of options written as a JSON object. -/
def configureText (s : Session) (text : String) : Except OptionError Config × Session :=
  match parseOptions text with
  | .ok options => s.configure options
  | .error error => (.error error, s)

/-- An analysis without frames, on the cache of the session. -/
def analysis (s : Session) (config : Config) : Analysis := { config, cache := s.cache }

/-- The session after an analysis on its cache. -/
def afterAnalysis (s : Session) (a : Analysis) : Session := { s with cache := a.cache }

def clearCache (s : Session) : Session := { s with cache := {} }

end Session

end FrameAudit
