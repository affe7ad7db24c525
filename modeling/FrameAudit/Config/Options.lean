import FrameAudit.Config.Basic
import FrameAudit.Json.Printer
import FrameAudit.Json.Reader

/-! # Options

A configuration can be given by options, a map from names to JSON values. The options are visited in
ascending order of their names and the first that cannot be taken is the error. A configuration that
asks to be fresh takes the next generation, and a failure takes none. -/

namespace FrameAudit

/-- Why options give no configuration. -/
inductive OptionError where
  | unknown (option : String)
  | inliningRequested
  | notBoolean (option : String) (got : Json)
  | notString (option : String) (got : Json)
  | unknownPolicy (option got : String)
  /-- The text is no JSON object. -/
  | malformed

namespace OptionError

private def expects (option expected got : String) : String :=
  "option `" ++ option ++ "` expects " ++ expected ++ ", got " ++ got

/-- What is wrong with an option. -/
def message? : OptionError → Option String
  | .unknown option => some ("unknown analyzer option `" ++ option ++ "`")
  | .inliningRequested => some
      "invalid configuration: inlining must stay disabled; reports rely on un-inlined frames"
  | .notBoolean option got => some (expects option "a boolean" got.render)
  | .notString option got => some (expects option "a string" got.render)
  | .unknownPolicy option got => some (expects option "\"basic\" or \"sound\"" got)
  | .malformed => none

end OptionError

/-- What the options visited so far ask for. -/
structure Settings where
  tuning : Tuning := {}
  policy : Policy := .basic
  fresh : Bool := false
deriving DecidableEq

namespace Settings

def boolean (option : String) : Json → Except OptionError Bool
  | .bool b => .ok b
  | got => .error (.notBoolean option got)

def policyNamed (option : String) : Json → Except OptionError Policy
  | .string name =>
    match Policy.ofName? name with
    | some policy => .ok policy
    | none => .error (.unknownPolicy option name)
  | got => .error (.notString option got)

/-- Takes one option. -/
def apply (s : Settings) (option : String × Json) : Except OptionError Settings :=
  let (name, value) := option
  match name with
  | "aggressive_constant_propagation" => do
    return { s with tuning.aggressiveConstantPropagation := ← boolean name value }
  | "unoptimize_throw_blocks" => do
    return { s with tuning.unoptimizeThrowBlocks := ← boolean name value }
  | "inlining" => do if ← boolean name value then .error .inliningRequested else return s
  | "report_pass" => do return { s with policy := ← policyNamed name value }
  | "fresh" => do return { s with fresh := ← boolean name value }
  | _ => .error (.unknown name)

/-- The settings of a map of options. -/
def ofOptions (options : List (String × Json)) : Except OptionError Settings :=
  (Json.orderMembers options).foldlM apply {}

end Settings

/-- The members of the JSON object that a text holds. -/
def parseOptions (text : String) : Except OptionError (List (String × Json)) :=
  match Json.parse? text with
  | some (.object members) => .ok members
  | _ => .error .malformed

end FrameAudit
