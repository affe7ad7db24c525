import FrameAudit.Decimal.Shortest
import FrameAudit.Json.Basic

/-! # JSON text of a value

The compact text: no blanks, members in their given order, characters outside ASCII as they are. -/

namespace FrameAudit

namespace Number

/-- Doubles are positional from `0.00001` up to, but not including, `10 ^ 16`. -/
def layout : Decimal.Layout := ⟨-5, 16, "e"⟩

/-- The sign bit of a double, which zero has too. -/
def isNegative (x : Float) : Bool := 0x8000000000000000 ≤ x.toBits.toNat

def render : Number → String
  | .integer n => toString n
  | .double x => (if isNegative x then "-" else "") ++ (Decimal.ofFloat x).render layout

end Number

namespace Json

/-- The character for a digit below 16, in lower case. -/
private def hexDigit (n : Nat) : Char := Char.ofNat (if n < 10 then 48 + n else 87 + n)

/-- A character inside a string. Quotes, backslashes and control characters are escaped. -/
def escape (c : Char) : String :=
  if c = '"' then "\\\""
  else if c = '\\' then "\\\\"
  else if c = '\n' then "\\n"
  else if c = '\r' then "\\r"
  else if c = '\t' then "\\t"
  else if c.toNat = 0x08 then "\\b"
  else if c.toNat = 0x0c then "\\f"
  else if c.toNat < 0x20 then
    "\\u00" ++ String.ofList [hexDigit (c.toNat / 16), hexDigit (c.toNat % 16)]
  else c.toString

/-- A string between quotes. -/
def quote (s : String) : String :=
  "\"" ++ s.foldl (fun text c => text ++ escape c) "" ++ "\""

mutual

/-- The compact text of a value. -/
def render : Json → String
  | .null => "null"
  | .bool b => if b then "true" else "false"
  | .number n => n.render
  | .string s => quote s
  | .array elements => "[" ++ ",".intercalate (renderElements elements) ++ "]"
  | .object members => "\x7b" ++ ",".intercalate (renderMembers members) ++ "\x7d"

def renderElements : List Json → List String
  | [] => []
  | element :: rest => render element :: renderElements rest

def renderMembers : List (String × Json) → List String
  | [] => []
  | (key, value) :: rest => (quote key ++ ":" ++ render value) :: renderMembers rest

end

end Json

end FrameAudit
