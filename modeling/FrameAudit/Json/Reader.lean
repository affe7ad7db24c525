import FrameAudit.Json.Basic
import FrameAudit.Json.Tree

/-! # Reading a JSON text

What a tree stands for. The escapes of a string must pair up to characters, a number must not be
beyond the doubles, containers are nested at most `maxDepth` deep, and of the members of an object
with one key the last stands. -/

namespace FrameAudit

/-! ## Numbers -/

namespace Number

/-- Appends digits to `n` as long as the result fits in 64 bits. Gives the result and the number of
digits left over. -/
def absorb (n : Nat) : List Nat → Nat × Nat
  | [] => (n, 0)
  | d :: digits =>
    if 10 * n + d < UInt64.size then absorb (10 * n + d) digits else (n, digits.length + 1)

/-- The largest exponent of a power of ten that is a double. -/
def maxPower : Nat := 308

def powerOfTen (k : Nat) : Float := Float.ofScientific 1 false k

/-- Divides by `10 ^ k`, in steps of at most `10 ^ maxPower`. -/
def scaleDown (x : Float) (k : Nat) : Float :=
  if k ≤ maxPower then x / powerOfTen k
  else if x == 0 then x
  else scaleDown (x / powerOfTen maxPower) (k - maxPower)
termination_by k
decreasing_by simp only [maxPower] at *; omega

/-- The double for `significand * 10 ^ exponent`: the significand is rounded to a double and then
scaled. There is none if the result is beyond the doubles. -/
def scaled? (significand : Nat) (exponent : Int) : Option Float :=
  let x := Float.ofNat significand
  if exponent < 0 then some (scaleDown x exponent.natAbs)
  else if exponent.natAbs ≤ maxPower then
    let y := x * powerOfTen exponent.natAbs
    if y.isInf then none else some y
  else if x == 0 then some x
  else none

/-- The double for a numeral. Only the leading digits that fit in 64 bits count. -/
def double? (n : Json.Numeral) : Option Float :=
  let (significand, dropped) := absorb 0 n.whole
  let fraction := n.fraction.getD []
  let (significand, ignored) := absorb significand fraction
  let exponent : Int := dropped - (fraction.length - ignored : Nat) + n.exponent.getD 0
  (scaled? significand exponent).map fun x => if n.negative then -x else x

/-- The integer for a numeral with neither fraction nor exponent, if it fits in 64 bits, signed or
not. The numeral `-0` is no integer. -/
def integer? (n : Json.Numeral) : Option Int :=
  let size := Json.ofDigits n.whole
  if n.fraction.isSome || n.exponent.isSome then none
  else if n.negative then
    if 0 < size && Int64.minValue.toInt ≤ -size then some (-size) else none
  else if size < UInt64.size then some size
  else none

/-- The number a numeral stands for: an integer where it can be, otherwise a double. -/
def ofNumeral? (n : Json.Numeral) : Option Number :=
  match integer? n with
  | some value => some (.integer value)
  | none => (double? n).map .double

end Number

namespace Json

/-! ## Strings -/

def isHighSurrogate (u : Nat) : Bool := 0xd800 ≤ u && u < 0xdc00

def isLowSurrogate (u : Nat) : Bool := 0xdc00 ≤ u && u < 0xe000

/-- The characters of a string. A high surrogate must be followed by a low one, and a low one must
follow a high one. -/
def characters? : List Piece → Option (List Char)
  | [] => some []
  | .char c :: rest => (characters? rest).map (c :: ·)
  | .unit high :: .unit low :: rest =>
    if isHighSurrogate high then
      if isLowSurrogate low then
        let code := 0x10000 + (high - 0xd800) * 0x400 + (low - 0xdc00)
        (characters? rest).map (Char.ofNat code :: ·)
      else none
    else if isLowSurrogate high then none
    else (characters? (.unit low :: rest)).map (Char.ofNat high :: ·)
  | .unit u :: rest =>
    if isHighSurrogate u || isLowSurrogate u then none
    else (characters? rest).map (Char.ofNat u :: ·)

/-- The string that was written in the given pieces. -/
def string? (pieces : List Piece) : Option String := (characters? pieces).map String.ofList

/-! ## Parts of a tree

A tree can be read where only some of its parts need to stand for values. -/

namespace Tree

variable {α : Type}

def string? : Tree → Option String
  | .text pieces => Json.string? pieces
  | _ => none

def list? (element? : Tree → Option α) : Tree → Option (List α)
  | .array elements => elements.mapM element?
  | _ => none

/-- A list that is empty when it is missing. -/
def optionalList? (element? : Tree → Option α) : Option Tree → Option (List α)
  | none => some []
  | some value => value.list? element?

/-- The value of a field, which may be given at most once. -/
def field? (members : List (String × Tree)) (name : String) : Option (Option Tree) :=
  match members.filter (·.1 == name) with
  | [] => some none
  | [(_, value)] => some (some value)
  | _ => none

/-- The fields of a record in the order of `names`: members of an object, or elements of an array
whose last ones may be left off. -/
def record? (names : List String) : Tree → Option (List (Option Tree))
  | .object members => do
    let members ← members.mapM fun (key, value) => do return (← Json.string? key, value)
    names.mapM (field? members)
  | .array elements =>
    if elements.length ≤ names.length then
      some (elements.map some ++ List.replicate (names.length - elements.length) none)
    else none
  | _ => none

end Tree

/-! ## Values -/

/-- The deepest nesting of containers that is read. -/
def maxDepth : Nat := 127

mutual

/-- The value of a tree whose containers are nested at most `depth` deep. -/
def ofTree? (depth : Nat) : Tree → Option Json
  | .null => some .null
  | .bool b => some (.bool b)
  | .numeral n => (Number.ofNumeral? n).map .number
  | .text pieces => (string? pieces).map .string
  | .array elements =>
    if depth = 0 then none else (ofElements? (depth - 1) elements).map .array
  | .object members =>
    if depth = 0 then none
    else (ofMembers? (depth - 1) members).map fun ms => .object (orderMembers ms)

def ofElements? (depth : Nat) : List Tree → Option (List Json)
  | [] => some []
  | element :: rest => do return (← ofTree? depth element) :: (← ofElements? depth rest)

def ofMembers? (depth : Nat) : List (List Piece × Tree) → Option (List (String × Json))
  | [] => some []
  | (key, value) :: rest => do
    return (← string? key, ← ofTree? depth value) :: (← ofMembers? depth rest)

end

/-- The value of a JSON text. -/
def parse? (text : String) : Option Json := Tree.parse? text >>= ofTree? maxDepth

end Json

end FrameAudit
