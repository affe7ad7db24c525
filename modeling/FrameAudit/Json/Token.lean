/-! # Tokens of a JSON text

A text is read character by character. Brackets, colons and commas stand for themselves, a string
is kept as the pieces it was written in, and every other run of characters up to a blank, a quote or
a bracket is one word, which must be a literal name or a numeral. -/

namespace FrameAudit

namespace Json

/-- A piece of a string: a character, or a `\u` escape of one UTF-16 unit. -/
inductive Piece where
  | char (c : Char)
  | unit (value : Nat)
deriving DecidableEq

/-- A number as it is written. `whole` and `fraction` are digits, most significant first. -/
structure Numeral where
  negative : Bool
  whole : List Nat
  fraction : Option (List Nat)
  exponent : Option Int
deriving DecidableEq

inductive Token where
  | beginArray
  | endArray
  | beginObject
  | endObject
  | colon
  | comma
  | null
  | bool (value : Bool)
  | numeral (value : Numeral)
  | text (pieces : List Piece)
deriving DecidableEq

/-! ## Words -/

/-- The value of a decimal digit. -/
def digit? (c : Char) : Option Nat :=
  if '0' ≤ c && c ≤ '9' then some (c.toNat - 48) else none

/-- The value of a hexadecimal digit in either case. -/
def hexDigit? (c : Char) : Option Nat :=
  if '0' ≤ c && c ≤ '9' then some (c.toNat - 48)
  else if 'a' ≤ c && c ≤ 'f' then some (c.toNat - 87)
  else if 'A' ≤ c && c ≤ 'F' then some (c.toNat - 55)
  else none

/-- The digits at the front of `cs`, and what follows them. -/
def spanDigits (cs : List Char) : List Nat × List Char :=
  ((cs.takeWhile (digit? · |>.isSome)).filterMap digit?, cs.dropWhile (digit? · |>.isSome))

/-- The natural number with the given digits, most significant first. -/
def ofDigits (digits : List Nat) : Nat := digits.foldl (fun n d => 10 * n + d) 0

namespace Numeral

/-- The exponent part: nothing, or `e` with an optional sign and at least one digit. -/
def exponent? : List Char → Option (Option Int)
  | [] => some none
  | e :: rest =>
    if e = 'e' || e = 'E' then
      let (negative, rest) := match rest with
        | '-' :: rest => (true, rest)
        | '+' :: rest => (false, rest)
        | rest => (false, rest)
      match spanDigits rest with
      | (digit :: digits, []) =>
        let size : Int := ofDigits (digit :: digits)
        some (some (if negative then -size else size))
      | _ => none
    else none

/-- The fraction part: nothing, or a point and at least one digit. -/
def fraction? : List Char → Option (Option (List Nat) × List Char)
  | '.' :: rest =>
    match spanDigits rest with
    | (digit :: digits, rest) => some (some (digit :: digits), rest)
    | ([], _) => none
  | rest => some (none, rest)

/-- A numeral: an optional minus, digits without a superfluous leading zero, and the optional
fraction and exponent parts. -/
def ofWord? (word : List Char) : Option Numeral := do
  let (negative, word) := match word with
    | '-' :: rest => (true, rest)
    | rest => (false, rest)
  let (whole, rest) := spanDigits word
  guard (whole != [] && (whole.head? != some 0 || whole.length == 1))
  let (fraction, rest) ← fraction? rest
  let exponent ← exponent? rest
  return { negative, whole, fraction, exponent }

end Numeral

/-- The token a word stands for. -/
def Token.ofWord? (word : List Char) : Option Token :=
  if word = ['n', 'u', 'l', 'l'] then some .null
  else if word = ['t', 'r', 'u', 'e'] then some (.bool true)
  else if word = ['f', 'a', 'l', 's', 'e'] then some (.bool false)
  else (Numeral.ofWord? word).map .numeral

/-! ## The reader of tokens -/

/-- What the reader of tokens is inside of. Lists hold the latest part first. -/
inductive Lexer.Mode where
  | blank
  | word (characters : List Char)
  | text (pieces : List Piece)
  | escape (pieces : List Piece)
  | hex (pieces : List Piece) (digits : List Nat)

/-- The tokens read, latest first, and the token being read. -/
structure Lexer where
  tokens : List Token
  mode : Lexer.Mode

namespace Lexer

def isBlank (c : Char) : Bool := c = ' ' || c = '\t' || c = '\n' || c = '\r'

def punctuation? (c : Char) : Option Token :=
  if c = '[' then some .beginArray
  else if c = ']' then some .endArray
  else if c.toNat = 0x7b then some .beginObject
  else if c.toNat = 0x7d then some .endObject
  else if c = ':' then some .colon
  else if c = ',' then some .comma
  else none

/-- The character an escape other than `\u` stands for. -/
def shortEscape? (c : Char) : Option Char :=
  if c = '"' || c = '\\' || c = '/' then some c
  else if c = 'b' then some (Char.ofNat 0x08)
  else if c = 'f' then some (Char.ofNat 0x0c)
  else if c = 'n' then some '\n'
  else if c = 'r' then some '\r'
  else if c = 't' then some '\t'
  else none

/-- Reads a character between tokens. -/
def outside (tokens : List Token) (c : Char) : Lexer :=
  if isBlank c then ⟨tokens, .blank⟩
  else if c = '"' then ⟨tokens, .text []⟩
  else match punctuation? c with
    | some token => ⟨token :: tokens, .blank⟩
    | none => ⟨tokens, .word [c]⟩

/-- Reads one character. -/
def step : Lexer → Char → Option Lexer
  | ⟨tokens, .blank⟩, c => some (outside tokens c)
  | ⟨tokens, .word cs⟩, c =>
    if isBlank c || c = '"' || (punctuation? c).isSome then
      (Token.ofWord? cs.reverse).map fun token => outside (token :: tokens) c
    else some ⟨tokens, .word (c :: cs)⟩
  | ⟨tokens, .text pieces⟩, c =>
    if c = '"' then some ⟨.text pieces.reverse :: tokens, .blank⟩
    else if c = '\\' then some ⟨tokens, .escape pieces⟩
    else if c.toNat < 0x20 then none
    else some ⟨tokens, .text (.char c :: pieces)⟩
  | ⟨tokens, .escape pieces⟩, c =>
    if c = 'u' then some ⟨tokens, .hex pieces []⟩
    else (shortEscape? c).map fun e => ⟨tokens, .text (.char e :: pieces)⟩
  | ⟨tokens, .hex pieces digits⟩, c =>
    (hexDigit? c).map fun d =>
      match digits with
      | [d₂, d₁, d₀] => ⟨tokens, .text (.unit (((d₀ * 16 + d₁) * 16 + d₂) * 16 + d) :: pieces)⟩
      | _ => ⟨tokens, .hex pieces (d :: digits)⟩

/-- The tokens at the end of the text. A string must be closed. -/
def finish : Lexer → Option (List Token)
  | ⟨tokens, .blank⟩ => some tokens.reverse
  | ⟨tokens, .word cs⟩ => (Token.ofWord? cs.reverse).map fun token => (token :: tokens).reverse
  | _ => none

end Lexer

/-- The tokens of a text. -/
def tokens? (text : String) : Option (List Token) := do
  (← text.toList.foldlM Lexer.step ⟨[], .blank⟩).finish

end Json

end FrameAudit
