import EoAssembly.Text.Hex

/-!
Contract: the tokens of a JSON text.

Owns:
- the strings between quotes, with their escapes and surrogate pairs;
- number literals, which have no leading zeros and need a digit behind a point
  and behind an exponent mark;
- `tokens`, which skips the four blanks of the format and refuses a text with
  anything else between tokens.
-/

namespace EoAssembly.Json

/-- A token; a string without text is ill formed. -/
inductive Token where
  | openArray
  | closeArray
  | openObject
  | closeObject
  | comma
  | colon
  | null
  | bool (value : Bool)
  | number (literal : String)
  | string (text : Option String)
  deriving DecidableEq

/-- A character of a string as written: itself, or a code unit in an escape. -/
inductive StringPiece where
  | plain (c : Char)
  | unit (code : Nat)
  deriving DecidableEq

/-- The value of four hexadecimal digits. -/
def unitOf? (digits : List Char) : Option Nat := Text.natOfHex? digits

/-- The character an escape of one letter stands for. -/
def shortEscape? (c : Char) : Option Char :=
  if c = '\x22' ∨ c = '\\' ∨ c = '/' then some c
  else if c = 'b' then some (Char.ofNat 8)
  else if c = 'f' then some (Char.ofNat 12)
  else if c = 'n' then some '\n'
  else if c = 'r' then some '\r'
  else if c = 't' then some '\t'
  else none

/-- The pieces of a string up to its closing quote, and what follows it. -/
def stringPieces : List Char → Option (List StringPiece × List Char)
  | [] => none
  | '\\' :: 'u' :: a :: b :: c :: d :: rest =>
    match unitOf? [a, b, c, d], stringPieces rest with
    | some code, some (pieces, behind) => some (.unit code :: pieces, behind)
    | _, _ => none
  | '\\' :: letter :: rest =>
    match shortEscape? letter, stringPieces rest with
    | some c, some (pieces, behind) => some (.plain c :: pieces, behind)
    | _, _ => none
  | c :: rest =>
    if c = '\x22' then some ([], rest)
    else if c = '\\' ∨ c.toNat < 32 then none
    else match stringPieces rest with
      | some (pieces, behind) => some (.plain c :: pieces, behind)
      | none => none

/-- Whether a code unit is the first half of a pair. -/
def isHighHalf (code : Nat) : Bool := 0xD800 ≤ code && code < 0xDC00

/-- Whether a code unit is the second half of a pair. -/
def isLowHalf (code : Nat) : Bool := 0xDC00 ≤ code && code < 0xE000

/-- The characters of pieces, when every half of a pair has its other half. -/
def charactersOf : List StringPiece → Option (List Char)
  | [] => some []
  | .plain c :: rest => (charactersOf rest).map (c :: ·)
  | .unit high :: .unit low :: rest =>
    if isHighHalf high then
      if isLowHalf low then
        (charactersOf rest).map
          (Char.ofNat (0x10000 + (high - 0xD800) * 0x400 + (low - 0xDC00)) :: ·)
      else none
    else if isLowHalf high then none
    else (charactersOf (.unit low :: rest)).map (Char.ofNat high :: ·)
  | .unit code :: rest =>
    if isHighHalf code || isLowHalf code then none
    else (charactersOf rest).map (Char.ofNat code :: ·)

/-- One or more digits at the start of a list. -/
def someDigits? (text : List Char) : Option (List Char × List Char) :=
  match text.span Char.isDigit with
  | ([], _) => none
  | found => some found

/-- The whole part of a number: a zero alone, or digits that start with no zero. -/
def wholePart? : List Char → Option (List Char × List Char)
  | '0' :: rest => some (['0'], rest)
  | text => someDigits? text

/-- The part of a number behind its point, if there is a point. -/
def fraction? : List Char → Option (List Char × List Char)
  | '.' :: rest => (someDigits? rest).map fun found => ('.' :: found.1, found.2)
  | text => some ([], text)

/-- The exponent of a number, if there is one. -/
def exponent? : List Char → Option (List Char × List Char)
  | mark :: sign :: rest =>
    if mark = 'e' ∨ mark = 'E' then
      if sign = '+' ∨ sign = '-' then
        (someDigits? rest).map fun found => (mark :: sign :: found.1, found.2)
      else
        (someDigits? (sign :: rest)).map fun found => (mark :: found.1, found.2)
    else some ([], mark :: sign :: rest)
  | [mark] => if mark = 'e' ∨ mark = 'E' then none else some ([], [mark])
  | [] => some ([], [])

/-- A number literal at the start of a list, and what follows it. -/
def number? (text : List Char) : Option (List Char × List Char) := do
  let (sign, unsigned) := match text with
    | '-' :: rest => (['-'], rest)
    | _ => ([], text)
  let (whole, afterWhole) ← wholePart? unsigned
  let (fraction, afterFraction) ← fraction? afterWhole
  let (exponent, behind) ← exponent? afterFraction
  pure (sign ++ whole ++ fraction ++ exponent, behind)

/-- The token at the start of a list that starts with no blank. -/
def token? : List Char → Option (Token × List Char)
  | '[' :: rest => some (.openArray, rest)
  | ']' :: rest => some (.closeArray, rest)
  | '\x7b' :: rest => some (.openObject, rest)
  | '\x7d' :: rest => some (.closeObject, rest)
  | ',' :: rest => some (.comma, rest)
  | ':' :: rest => some (.colon, rest)
  | '\x22' :: rest =>
    (stringPieces rest).map fun found =>
      (.string ((charactersOf found.1).map String.ofList), found.2)
  | 'n' :: 'u' :: 'l' :: 'l' :: rest => some (.null, rest)
  | 't' :: 'r' :: 'u' :: 'e' :: rest => some (.bool true, rest)
  | 'f' :: 'a' :: 'l' :: 's' :: 'e' :: rest => some (.bool false, rest)
  | text => (number? text).map fun found => (.number (String.ofList found.1), found.2)

/-- Whether a character may stand between tokens. -/
def isBlank (c : Char) : Bool := c == ' ' || c == '\n' || c == '\t' || c == '\r'

/-- The tokens of a list, in at most `fuel` steps. -/
def tokensWithin : Nat → List Char → Option (List Token)
  | _, [] => some []
  | 0, _ => none
  | fuel + 1, c :: rest =>
    if isBlank c then tokensWithin fuel rest
    else match token? (c :: rest) with
      | some (token, behind) => (tokensWithin fuel behind).map (token :: ·)
      | none => none

/-- The tokens of a text; every step takes a character, so the bound is enough. -/
def tokens (text : String) : Option (List Token) :=
  tokensWithin text.toList.length text.toList

end EoAssembly.Json
