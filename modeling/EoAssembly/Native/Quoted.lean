import EoAssembly.Text.Hex
import EoAssembly.Text.Pieces

/-!
Contract: keys and strings of a TOML document.

A key is bare when it holds only letters, digits, underscores and hyphens.  A
string prefers, in this order, double quotes without escapes, single quotes,
three double quotes, three single quotes, and at last escapes.

Owns `key` and `string`.
-/

namespace EoAssembly.Native.Quoted

/-- The length of the longest run of `c`, given the run that ends here. -/
def longestRun (c : Char) : Nat → List Char → Nat
  | run, [] => run
  | run, next :: rest =>
    if next = c then longestRun c (run + 1) rest else max run (longestRun c 0 rest)

/-- Whether a character is written by an escape in every kind of quotes. -/
def isControl (c : Char) : Bool :=
  (c.toNat < 32 && c != '\t' && c != '\n') || c.toNat == 127

/-- The escape of one character between double quotes; `multiline` keeps line feeds. -/
def escape (multiline : Bool) (c : Char) : List Char :=
  if c = '\x22' ∧ !multiline then ['\\', '\x22']
  else if c = '\\' then ['\\', '\\']
  else if c = '\n' then (if multiline then ['\n'] else ['\\', 'n'])
  else if c = '\t' then ['\\', 't']
  else if c = '\r' then ['\\', 'r']
  else if c = Char.ofNat 8 then ['\\', 'b']
  else if c = Char.ofNat 12 then ['\\', 'f']
  else if isControl c then
    '\\' :: 'u' :: (Text.hexDigits 4 c.toNat).map Char.toUpper
  else [c]

/-- Characters between three double quotes, where the third of three double
quotes in a row is escaped; `run` counts those just before. -/
def escapeMultiline : Nat → List Char → List Char
  | _, [] => []
  | run, c :: rest =>
    if c = '\x22' then
      if run = 2 then '\\' :: '\x22' :: escapeMultiline 0 rest
      else '\x22' :: escapeMultiline (run + 1) rest
    else escape true c ++ escapeMultiline 0 rest

/-- A text between marks, three of which are followed by a line feed when the
text holds one. -/
def between (mark : List Char) (text written : List Char) : List Char :=
  mark ++ (if mark.length = 3 ∧ text.contains '\n' then ['\n'] else []) ++ written ++ mark

/-- Double quotes without escapes suffice. -/
def plainSuffices (text : List Char) : Bool :=
  !text.any fun c => isControl c || c == '\\' || c == '\x22' || c == '\n'

/-- Single quotes suffice. -/
def singleSuffices (text : List Char) : Bool :=
  !text.any fun c => isControl c || c == '\x27' || c == '\n'

/-- Three double quotes suffice without escapes. -/
def tripleSuffices (text : List Char) : Bool :=
  !(text.any fun c => isControl c || c == '\\') && longestRun '\x22' 0 text ≤ 2

/-- Three single quotes suffice. -/
def tripleSingleSuffices (text : List Char) : Bool :=
  !(text.any isControl) && longestRun '\x27' 0 text ≤ 2

/-- Three double quotes. -/
def tripleMark : List Char := ['\x22', '\x22', '\x22']

/-- A string. -/
def string (text : String) : String :=
  let chars := text.toList
  String.ofList <|
    if plainSuffices chars then between ['\x22'] chars (chars.flatMap (escape false))
    else if singleSuffices chars then between ['\x27'] chars chars
    else if tripleSuffices chars then between tripleMark chars (escapeMultiline 0 chars)
    else if tripleSingleSuffices chars then between ['\x27', '\x27', '\x27'] chars chars
    else if chars.contains '\n' then between tripleMark chars (escapeMultiline 0 chars)
    else between ['\x22'] chars (chars.flatMap (escape false))

/-- Whether a character may stand in a bare key. -/
def isBareChar (c : Char) : Bool := c.isAlphanum || c == '_' || c == '-'

/-- A key. -/
def key (text : String) : String :=
  let chars := text.toList
  if !chars.isEmpty && chars.all isBareChar then text
  else String.ofList <|
    if plainSuffices chars then between ['\x22'] chars chars
    else if singleSuffices chars then between ['\x27'] chars chars
    else between ['\x22'] chars (chars.flatMap (escape false))

end EoAssembly.Native.Quoted
