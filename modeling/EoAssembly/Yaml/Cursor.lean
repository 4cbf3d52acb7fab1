/-!
Contract: a place in a YAML text.

Owns `Cursor`, which knows its line and column and moves by characters and by
line ends, the character classes of the format, and the blank space between
tokens.
-/

namespace EoAssembly.Yaml

/-- What is left of a text, and where it starts. -/
structure Cursor where
  rest : List Char
  index : Nat
  line : Nat
  column : Nat

/-- Whether a character is a blank. -/
def isBlank (c : Char) : Bool := c == ' ' || c == '\t'

/-- Whether a character ends a line. -/
def isBreak (c : Char) : Bool :=
  c == '\n' || c == '\r' || c.toNat == 0x85 || c.toNat == 0x2028 || c.toNat == 0x2029

/-- Whether a character may stand in the name of an anchor. -/
def isWordChar (c : Char) : Bool := c.isAlphanum || c == '_' || c == '-'

/-- Whether a character may stand in a text. -/
def isAllowed (c : Char) : Bool :=
  let code := c.toNat
  code == 9 || code == 10 || code == 13 || (0x20 ≤ code && code ≤ 0x7E) || code == 0x85
    || (0xA0 ≤ code && code ≤ 0xD7FF) || (0xE000 ≤ code && code ≤ 0xFFFD) || 0x10000 ≤ code

namespace Cursor

/-- The start of a text. -/
def start (text : List Char) : Cursor := ⟨text, 0, 0, 0⟩

/-- The next character. -/
def next? (cursor : Cursor) : Option Char := cursor.rest.head?

/-- The character `count` places further on. -/
def ahead? (cursor : Cursor) (count : Nat) : Option Char := cursor.rest[count]?

/-- Whether nothing or a blank or a line end is `count` places further on. -/
def blankOrEndAt (cursor : Cursor) (count : Nat) : Bool :=
  match cursor.ahead? count with
  | none => true
  | some c => isBlank c || isBreak c

/-- Whether nothing or a line end comes next. -/
def atLineEnd (cursor : Cursor) : Bool :=
  match cursor.next? with
  | none => true
  | some c => isBreak c

/-- The cursor behind `count` characters of its line. -/
def skip (cursor : Cursor) (count : Nat) : Cursor :=
  ⟨cursor.rest.drop count, cursor.index + count, cursor.line, cursor.column + count⟩

/-- The cursor behind a line end, if one comes next. -/
def skipBreak (cursor : Cursor) : Cursor :=
  match cursor.rest with
  | '\r' :: '\n' :: rest => ⟨rest, cursor.index + 2, cursor.line + 1, 0⟩
  | c :: rest =>
    if isBreak c then ⟨rest, cursor.index + 1, cursor.line + 1, 0⟩ else cursor
  | [] => cursor

/-- What the line end that comes next stands for. -/
def breakText (cursor : Cursor) : List Char :=
  match cursor.next? with
  | none => []
  | some c => if c.toNat == 0x2028 || c.toNat == 0x2029 then [c] else if isBreak c then ['\n'] else []

/-- The cursor behind the characters of its line that satisfy a test. -/
def skipWhile (cursor : Cursor) (test : Char → Bool) : Cursor :=
  cursor.skip (cursor.rest.takeWhile test).length

/-- The characters that satisfy a test, and the cursor behind them. -/
def take (cursor : Cursor) (test : Char → Bool) : List Char × Cursor :=
  let taken := cursor.rest.takeWhile test
  (taken, cursor.skip taken.length)

/-- Whether three characters at the start of a line mark a document. -/
def atMark (cursor : Cursor) (mark : Char) : Bool :=
  cursor.column == 0 && [mark, mark, mark].isPrefixOf cursor.rest && cursor.blankOrEndAt 3

/-- Whether a mark of a document comes next. -/
def atDocumentMark (cursor : Cursor) : Bool := cursor.atMark '-' || cursor.atMark '.'

end Cursor

end EoAssembly.Yaml
