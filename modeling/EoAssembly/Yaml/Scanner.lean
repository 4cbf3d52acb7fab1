import EoAssembly.Text.Pieces
import EoAssembly.Yaml.Scalar

/-!
Contract: the tokens of a YAML text.

Outside of brackets, columns open and close collections; a key is recognized
only at the colon behind it, so the places where a key may have started are
remembered, one for each level of brackets, and the token of a key is put there
afterwards.

Owns `Token`, `Scanner`, and `tokens`, which gives nothing for a broken text.
-/

namespace EoAssembly.Yaml

/-- A token. -/
inductive Token where
  | version (major minor : Nat)
  | handle (mark lead : String)
  | documentStart
  | documentEnd
  | blockSequenceStart
  | blockMappingStart
  | blockEnd
  | flowSequenceStart
  | flowSequenceEnd
  | flowMappingStart
  | flowMappingEnd
  | blockEntry
  | flowEntry
  | key
  | value
  | alias (name : String)
  | anchor (name : String)
  | tag (handle suffix : String)
  | scalar (style : Style) (text : String)
  deriving DecidableEq

/-- A place where a key may have started. -/
structure KeyStart where
  required : Bool
  position : Nat
  index : Nat
  line : Nat
  column : Nat

/-- What a scanner knows.  `keys` has one entry for each level of brackets, the
innermost first, and one for the text around them all; `indents` holds the
columns of the open collections outside of brackets, the innermost first. -/
structure Scanner where
  cursor : Cursor
  tokens : List Token
  indents : List Nat
  keys : List (Option KeyStart)
  keyAllowed : Bool

namespace Scanner

/-- A scanner at the start of a text. -/
def start (text : List Char) : Scanner := ⟨.start text, [], [], [none], true⟩

/-- Whether brackets are open. -/
def inFlow (scanner : Scanner) : Bool := scanner.keys.length != 1

/-- Whether the column of a place is right of the innermost collection. -/
def deeper (scanner : Scanner) (column : Nat) : Bool :=
  match scanner.indents with
  | [] => true
  | indent :: _ => indent < column

/-- A scanner with one more token. -/
def emit (scanner : Scanner) (token : Token) : Scanner :=
  { scanner with tokens := scanner.tokens ++ [token] }

/-- A scanner with a token put in at a position. -/
def emitAt (scanner : Scanner) (position : Nat) (token : Token) : Scanner :=
  { scanner with
    tokens := scanner.tokens.take position ++ token :: scanner.tokens.drop position }

/-- A scanner at another cursor. -/
def moved (scanner : Scanner) (cursor : Cursor) : Scanner := { scanner with cursor := cursor }

/-- A scanner that allows a key next or not. -/
def allowing (scanner : Scanner) (allowed : Bool) : Scanner :=
  { scanner with keyAllowed := allowed }

/-- Forgets the place of a key on this level, which must not have been required. -/
def forgetKey (scanner : Scanner) : Option Scanner :=
  match scanner.keys with
  | some place :: outer =>
    if place.required then none else some { scanner with keys := none :: outer }
  | _ => some scanner

/-- Remembers that a key may start here. -/
def rememberKey (scanner : Scanner) : Option Scanner :=
  if scanner.keyAllowed then
    scanner.forgetKey.map fun next =>
      let cursor := next.cursor
      let required := !next.inFlow && next.indents.head? == some cursor.column
      let place : KeyStart :=
        ⟨required, next.tokens.length, cursor.index, cursor.line, cursor.column⟩
      { next with keys := some place :: next.keys.tail }
  else some scanner

/-- Whether a key that started at a place may still be recognized. -/
def stillOpen (cursor : Cursor) (place : KeyStart) : Bool :=
  place.line == cursor.line && cursor.index ≤ place.index + 1024

/-- Places of keys without those that are on another line or too far back. -/
def freshKeys (cursor : Cursor) : List (Option KeyStart) → Option (List (Option KeyStart))
  | [] => some []
  | none :: rest => (freshKeys cursor rest).map (none :: ·)
  | some place :: rest =>
    if stillOpen cursor place then (freshKeys cursor rest).map (some place :: ·)
    else if place.required then none
    else (freshKeys cursor rest).map (none :: ·)

/-- Opens a collection at a column, when it is right of the innermost one; its
token is put in at `position`. -/
def opened (scanner : Scanner) (column position : Nat) (token : Token) : Scanner :=
  if scanner.inFlow || !scanner.deeper column then scanner
  else { scanner.emitAt position token with indents := column :: scanner.indents }

/-- The number of columns right of `column`, and the other ones. -/
def closing (column : Nat) : List Nat → Nat × List Nat
  | [] => (0, [])
  | indent :: rest =>
    if column < indent then
      let (count, left) := closing column rest
      (count + 1, left)
    else (0, indent :: rest)

/-- Closes the collections right of a column. -/
def closedTo (scanner : Scanner) (column : Nat) : Scanner :=
  if scanner.inFlow then scanner
  else
    let (count, left) := closing column scanner.indents
    { scanner with
      tokens := scanner.tokens ++ List.replicate count .blockEnd
      indents := left }

/-- Closes all collections. -/
def closedAll (scanner : Scanner) : Scanner :=
  if scanner.inFlow then scanner
  else
    { scanner with
      tokens := scanner.tokens ++ List.replicate scanner.indents.length .blockEnd
      indents := [] }

/-- Moves to the next token: over blanks, comments and line ends.  A tab where a
key may start is no blank. -/
def toNextToken : Nat → Scanner → Scanner
  | 0, scanner => scanner
  | fuel + 1, scanner =>
    let cursor := scanner.cursor
    match cursor.next? with
    | none => scanner
    | some c =>
      if c.toNat == 0xFEFF && cursor.index == 0 then toNextToken fuel (scanner.moved (cursor.skip 1))
      else if c == ' ' || (c == '\t' && (scanner.inFlow || !scanner.keyAllowed)) then
        toNextToken fuel (scanner.moved (cursor.skip 1))
      else if c == '#' then
        toNextToken fuel (scanner.moved (cursor.skipWhile fun d => !isBreak d))
      else if isBreak c then
        let next := scanner.moved cursor.skipBreak
        toNextToken fuel (if next.inFlow then next else next.allowing true)
      else scanner

/-- A mark of a document or the end of a part: all collections end before it. -/
def documentMark (scanner : Scanner) (token : Token) : Option Scanner :=
  scanner.closedAll.forgetKey.map fun next =>
    ((next.allowing false).emit token).moved (next.cursor.skip 3)

/-- An opening bracket. -/
def flowStart (scanner : Scanner) (token : Token) : Option Scanner :=
  scanner.rememberKey.map fun next =>
    ({ next with keys := none :: next.keys, keyAllowed := true }.emit token).moved
      (next.cursor.skip 1)

/-- A closing bracket. -/
def flowEnd (scanner : Scanner) (token : Token) : Option Scanner :=
  scanner.forgetKey.map fun next =>
    let keys := if next.inFlow then next.keys.tail else next.keys
    ({ next with keys := keys, keyAllowed := false }.emit token).moved (next.cursor.skip 1)

/-- A comma between brackets. -/
def flowEntry (scanner : Scanner) : Option Scanner :=
  scanner.forgetKey.map fun next =>
    ((next.allowing true).emit .flowEntry).moved (next.cursor.skip 1)

/-- A hyphen before an entry. -/
def blockEntry (scanner : Scanner) : Option Scanner :=
  if !scanner.inFlow && !scanner.keyAllowed then none
  else
    (scanner.opened scanner.cursor.column scanner.tokens.length .blockSequenceStart).forgetKey.map
      fun next => ((next.allowing true).emit .blockEntry).moved (next.cursor.skip 1)

/-- A question mark before a key. -/
def explicitKey (scanner : Scanner) : Option Scanner :=
  if !scanner.inFlow && !scanner.keyAllowed then none
  else
    (scanner.opened scanner.cursor.column scanner.tokens.length .blockMappingStart).forgetKey.map
      fun next => ((next.allowing (!next.inFlow)).emit .key).moved (next.cursor.skip 1)

/-- A colon before a value: what was remembered before it is a key. -/
def valueMark (scanner : Scanner) : Option Scanner :=
  match scanner.keys with
  | some place :: outer =>
    let marked := { scanner.emitAt place.position .key with keys := none :: outer }
    let next := marked.opened place.column place.position .blockMappingStart
    some (((next.allowing false).emit .value).moved (next.cursor.skip 1))
  | _ =>
    if !scanner.inFlow && !scanner.keyAllowed then none
    else
      let next :=
        scanner.opened scanner.cursor.column scanner.tokens.length .blockMappingStart
      some (((next.allowing (!next.inFlow)).emit .value).moved (next.cursor.skip 1))

/-- Whether a character may stand behind the name of an anchor. -/
def endsAnchor (cursor : Cursor) : Bool :=
  cursor.blankOrEndAt 0 || cursor.next?.any fun c => "?:,]\x7d%@".toList.contains c || c == '\x60'

/-- An anchor, or an alias of one. -/
def anchorOrAlias (scanner : Scanner) (token : String → Token) : Option Scanner :=
  scanner.rememberKey.bind fun next =>
    let (name, behind) := (next.cursor.skip 1).take isWordChar
    if name.isEmpty || !endsAnchor behind then none
    else some (((next.allowing false).emit (token (String.ofList name))).moved behind)

/-- Whether a character may stand in a tag. -/
def isTagChar (c : Char) : Bool :=
  isWordChar c || ";/?:@&=+$.!~*\x27()%".toList.contains c

/-- Whether a character may stand in a tag between angle brackets. -/
def isWideTagChar (c : Char) : Bool := isTagChar c || c == ',' || c == '[' || c == ']'

/-- The handle and the rest of a tag, and the cursor behind it. -/
def tagParts? (cursor : Cursor) : Option (String × String × Cursor) :=
  match cursor.rest with
  | '!' :: '<' :: _ =>
    let (name, behind) := (cursor.skip 2).take isWideTagChar
    if name.isEmpty || behind.next? != some '>' then none
    else some ("", String.ofList name, behind.skip 1)
  | _ =>
    let (word, behindWord) := (cursor.skip 1).take isWordChar
    if behindWord.next? == some '!' then
      let (suffix, behind) := (behindWord.skip 1).take isTagChar
      if suffix.isEmpty then none
      else some (String.ofList ('!' :: word ++ ['!']), String.ofList suffix, behind)
    else
      let (more, behind) := behindWord.take isTagChar
      if word.isEmpty && more.isEmpty then some ("", "!", behind)
      else some ("!", String.ofList (word ++ more), behind)

/-- A tag. -/
def tagMark (scanner : Scanner) : Option Scanner :=
  scanner.rememberKey.bind fun next =>
    match tagParts? next.cursor with
    | none => none
    | some (handle, suffix, behind) =>
      if behind.blankOrEndAt 0 || (next.inFlow && behind.next? == some ',') then
        some (((next.allowing false).emit (.tag handle suffix)).moved behind)
      else none

/-- A block scalar. -/
def blockScalar (scanner : Scanner) (style : Style) : Option Scanner :=
  scanner.forgetKey.bind fun next =>
    match block (style == .literal) next.indents.head? next.cursor with
    | none => none
    | some (text, behind) =>
      some (((next.allowing true).emit (.scalar style (String.ofList text))).moved behind)

/-- A quoted scalar. -/
def quotedScalar (scanner : Scanner) (quote : Char) : Option Scanner :=
  scanner.rememberKey.bind fun next =>
    match quoted quote next.cursor with
    | none => none
    | some (text, behind) =>
      some (((next.allowing false).emit (.scalar .quoted (String.ofList text))).moved behind)

/-- A plain scalar; behind a line end a key may start again. -/
def plainScalar (scanner : Scanner) : Option Scanner :=
  scanner.rememberKey.bind fun next =>
    let indent := match next.indents with
      | [] => 0
      | column :: _ => column + 1
    match plain next.inFlow indent next.cursor with
    | none => none
    | some (text, behind, broken) =>
      some (((next.allowing broken).emit (.scalar .plain (String.ofList text))).moved behind)

/-- The value of decimal digits. -/
def decimal (digits : List Char) : Nat :=
  digits.foldl (fun value digit => value * 10 + (digit.toNat - 48)) 0

/-- The numbers of a version directive, and the cursor behind them. -/
def versionAt? (cursor : Cursor) : Option (Token × Cursor) :=
  let (major, behindMajor) := (cursor.skipWhile isBlank).take Char.isDigit
  if major.isEmpty || 9 < major.length || behindMajor.next? != some '.' then none
  else
    let (minor, behind) := (behindMajor.skip 1).take Char.isDigit
    if minor.isEmpty || 9 < minor.length then none
    else some (.version (decimal major) (decimal minor), behind)

/-- The handle of a tag directive and what it stands for, and the cursor behind them. -/
def handleAt? (cursor : Cursor) : Option (Token × Cursor) :=
  let start := cursor.skipWhile isBlank
  if start.next? != some '!' then none
  else
    let (word, behindWord) := (start.skip 1).take isWordChar
    let closed := behindWord.next? == some '!'
    let behindHandle := if closed then behindWord.skip 1 else behindWord
    if (!word.isEmpty && !closed) || !behindHandle.next?.any isBlank then none
    else
      let (lead, behind) := (behindHandle.skipWhile isBlank).take isWideTagChar
      if lead.isEmpty || !behind.blankOrEndAt 0 then none
      else
        let mark := '!' :: word ++ (if closed then ['!'] else [])
        some (.handle (String.ofList mark) (String.ofList lead), behind)

/-- The rest of a line, which may hold a comment only. -/
def behindLine? (cursor : Cursor) : Option Cursor :=
  let behindBlanks := cursor.skipWhile isBlank
  let behind :=
    if behindBlanks.next? == some '#' then behindBlanks.skipWhile fun c => !isBreak c
    else behindBlanks
  if behind.atLineEnd then some behind.skipBreak else none

/-- A directive. -/
def directive (scanner : Scanner) : Option Scanner :=
  scanner.closedAll.forgetKey.bind fun next =>
    let (name, behindName) := (next.cursor.skip 1).take isWordChar
    if name.isEmpty || !behindName.blankOrEndAt 0 then none
    else
      let quiet := next.allowing false
      let known := if name = "YAML".toList then some (versionAt? behindName)
        else if name = "TAG".toList then some (handleAt? behindName)
        else none
      match known with
      | none => some (quiet.moved (behindName.skipWhile fun c => !isBreak c))
      | some none => none
      | some (some (token, behind)) => (behindLine? behind).map (quiet.emit token).moved

/-- Whether a plain scalar starts at a character. -/
def startsPlain (scanner : Scanner) (c : Char) : Bool :=
  let followed := !scanner.cursor.blankOrEndAt 1
  (!("-?:,[]\x7b\x7d#&*!|>\x27\x22%@".toList.contains c) && c != '\x60' && !isBlank c)
    || (c == '-' && !((scanner.cursor.ahead? 1).any isBlank))
    || (!scanner.inFlow && (c == '?' || c == ':') && followed)

/-- Reads one token that starts with `c`. -/
def token (scanner : Scanner) (c : Char) : Option Scanner :=
  let cursor := scanner.cursor
  let alone := cursor.blankOrEndAt 1
  if cursor.column == 0 && c == '%' then scanner.directive
  else if cursor.atMark '-' then scanner.documentMark .documentStart
  else if cursor.atMark '.' then scanner.documentMark .documentEnd
  else if c == '[' then scanner.flowStart .flowSequenceStart
  else if c == '\x7b' then scanner.flowStart .flowMappingStart
  else if c == ']' then scanner.flowEnd .flowSequenceEnd
  else if c == '\x7d' then scanner.flowEnd .flowMappingEnd
  else if c == ',' then scanner.flowEntry
  else if c == '-' && alone then scanner.blockEntry
  else if c == '?' && (scanner.inFlow || alone) then scanner.explicitKey
  else if c == ':' && (scanner.inFlow || alone) then scanner.valueMark
  else if c == '*' then scanner.anchorOrAlias .alias
  else if c == '&' then scanner.anchorOrAlias .anchor
  else if c == '!' then scanner.tagMark
  else if c == '|' && !scanner.inFlow then scanner.blockScalar .literal
  else if c == '>' && !scanner.inFlow then scanner.blockScalar .folded
  else if c == '\x27' || c == '\x22' then scanner.quotedScalar c
  else if scanner.startsPlain c then scanner.plainScalar
  else none

/-- Reads tokens to the end of the text, in at most `fuel` steps. -/
def run : Nat → Scanner → Option (List Token)
  | 0, _ => none
  | fuel + 1, scanner =>
    let here := toNextToken (scanner.cursor.rest.length + 1) scanner
    match freshKeys here.cursor here.keys with
    | none => none
    | some keys =>
      let fresh := { here with keys := keys }
      match fresh.cursor.next? with
      | none => fresh.closedAll.forgetKey.map Scanner.tokens
      | some c => ((fresh.closedTo fresh.cursor.column).token c).bind (run fuel)

end Scanner

/-- A text without the mark of its byte order. -/
def withoutMark : List Char → List Char
  | [] => []
  | c :: rest => if c.toNat == 0xFEFF then rest else c :: rest

/-- The tokens of a text; every step takes a character, so the bound is enough. -/
def tokens (text : String) : Option (List Token) :=
  let chars := withoutMark text.toList
  if chars.all isAllowed then Scanner.run (chars.length + 2) (.start chars) else none

end EoAssembly.Yaml
