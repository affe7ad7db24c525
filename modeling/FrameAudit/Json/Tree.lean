import FrameAudit.Json.Token

/-! # Trees of a JSON text

`Tree.parse?` reads a text by the grammar alone: strings keep their escapes, numerals their digits,
objects repeated members, and there is no bound on the nesting. What a tree stands for is decided in
`FrameAudit.Json.Reader`.

The reader is a machine over tokens. It holds the containers that are open, innermost first, and
what the next token may be. -/

namespace FrameAudit

namespace Json

/-- A JSON text as it is written. -/
inductive Tree where
  | null
  | bool (value : Bool)
  | numeral (value : Numeral)
  | text (pieces : List Piece)
  | array (elements : List Tree)
  | object (members : List (List Piece × Tree))

namespace Tree

/-- A container that is open, with its complete parts, latest first. -/
inductive Container where
  | array (elements : List Tree)
  | object (members : List (List Piece × Tree))
  /-- An object whose next member has the given key. -/
  | member (members : List (List Piece × Tree)) (key : List Piece)

/-- What the next token may be. -/
inductive Expectation where
  | value
  /-- The first element of an array, or its end. -/
  | firstElement
  /-- The first key of an object, or its end. -/
  | firstKey
  | key
  | colon (key : List Piece)
  /-- A comma or the end of the innermost container. -/
  | separator
  /-- The text is complete. -/
  | done (value : Tree)

structure Parser where
  containers : List Container
  expectation : Expectation

namespace Parser

/-- Hands a complete value to the innermost open container. -/
def deliver (value : Tree) : List Container → Option Parser
  | [] => some ⟨[], .done value⟩
  | .array elements :: rest => some ⟨.array (value :: elements) :: rest, .separator⟩
  | .member members key :: rest => some ⟨.object ((key, value) :: members) :: rest, .separator⟩
  | .object _ :: _ => none

/-- Reads a token where a value starts. -/
def startValue (containers : List Container) : Token → Option Parser
  | .null => deliver .null containers
  | .bool b => deliver (.bool b) containers
  | .numeral n => deliver (.numeral n) containers
  | .text pieces => deliver (.text pieces) containers
  | .beginArray => some ⟨.array [] :: containers, .firstElement⟩
  | .beginObject => some ⟨.object [] :: containers, .firstKey⟩
  | _ => none

/-- Ends the innermost container. -/
def close : Token → List Container → Option Parser
  | .endArray, .array elements :: rest => deliver (.array elements.reverse) rest
  | .endObject, .object members :: rest => deliver (.object members.reverse) rest
  | _, _ => none

/-- Reads one token. -/
def step : Parser → Token → Option Parser
  | ⟨containers, .value⟩, token => startValue containers token
  | ⟨containers, .firstElement⟩, token =>
    if token = .endArray then close token containers else startValue containers token
  | ⟨containers, .firstKey⟩, .text key => some ⟨containers, .colon key⟩
  | ⟨containers, .firstKey⟩, token => close token containers
  | ⟨containers, .key⟩, .text key => some ⟨containers, .colon key⟩
  | ⟨.object members :: rest, .colon key⟩, .colon => some ⟨.member members key :: rest, .value⟩
  | ⟨.array elements :: rest, .separator⟩, .comma => some ⟨.array elements :: rest, .value⟩
  | ⟨.object members :: rest, .separator⟩, .comma => some ⟨.object members :: rest, .key⟩
  | ⟨containers, .separator⟩, token => close token containers
  | _, _ => none

end Parser

/-- The tree of a text, which must be one value and nothing else. -/
def parse? (text : String) : Option Tree := do
  match ← (← tokens? text).foldlM Parser.step ⟨[], .value⟩ with
  | ⟨[], .done value⟩ => some value
  | _ => none

end Tree

end Json

end FrameAudit
