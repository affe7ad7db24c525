import FrameAudit.Json.Reader

/-! # Catalogs of known names

A catalog lists the error types that are always worth a report, and for each scope the names that
are known to be missing from it while a program is analysed. Its text is a JSON record with the
fields `serious_errors` and `shim_scopes`. -/

namespace FrameAudit

structure Catalog where
  seriousErrors : List String
  /-- Each scope with its names. -/
  shims : List (String × List String)

namespace Catalog

def isSerious (c : Catalog) (typeName : String) : Bool := c.seriousErrors.contains typeName

def isShim (c : Catalog) (scope name : String) : Bool :=
  match c.shims.lookup scope with
  | some names => names.contains name
  | none => false

/-- The names that apply unless a catalog is given. -/
def standard : Catalog where
  seriousErrors := ["UndefKeywordError", "MethodError"]
  shims := [("Base", ["active_repl", "active_repl_backend"])]

/-- Why a text is no catalog. -/
inductive Error where
  | malformed
  | duplicateScope (scope : String)
deriving DecidableEq

namespace Error

/-- What is wrong with a text that has the right form. -/
def message? : Error → Option String
  | .malformed => none
  | .duplicateScope scope => some ("shim scope `" ++ scope ++ "` listed more than once")

end Error

/-! ## Reading

The text is read from its tree, since the value of a field that is not known plays no part, whether
or not it can be represented. -/

open Json (Tree)

def scope? (tree : Tree) : Option (String × List String) := do
  match ← tree.record? ["scope", "bindings"] with
  | [scope, names] => return (← scope >>= Tree.string?, ← Tree.optionalList? Tree.string? names)
  | _ => none

def entries? (tree : Tree) : Option Catalog := do
  match ← tree.record? ["serious_errors", "shim_scopes"] with
  | [errors, scopes] =>
    return ⟨← Tree.optionalList? Tree.string? errors, ← Tree.optionalList? scope? scopes⟩
  | _ => none

/-- The first scope that was listed before. -/
def repeatedScope? (seen : List String) : List String → Option String
  | [] => none
  | scope :: rest => if scope ∈ seen then some scope else repeatedScope? (scope :: seen) rest

/-- The catalog of a text. No scope may be listed twice. -/
def parse (text : String) : Except Error Catalog :=
  match Tree.parse? text >>= entries? with
  | none => .error .malformed
  | some catalog =>
    match repeatedScope? [] (catalog.shims.map (·.1)) with
    | some scope => .error (.duplicateScope scope)
    | none => .ok catalog

end Catalog

end FrameAudit
