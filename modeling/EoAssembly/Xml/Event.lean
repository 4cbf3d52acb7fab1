import EoAssembly.Text.Hex
import EoAssembly.Text.Pieces
import EoAssembly.Xml.Name

/-!
Contract: the marks and texts of an XML document, before they are nested.

Owns:
- the declaration at the very start, of version 1.0 only;
- tags with their attributes, comments, instructions and character data;
- references to characters, and the line ends and blanks of values;
- `events`, which refuses a text with anything else outside of them.

Does not own: which end belongs to which start, and what prefixes mean.
-/

namespace EoAssembly.Xml

/-- A mark or a text. -/
inductive Event where
  | start (name : QName) (attributes : List (QName × String)) (closed : Bool)
  | finish (name : QName)
  | text (value : String)
  | comment (value : String)
  | instruction (target : String) (data : Option String)
  deriving DecidableEq

/-- The characters before `mark`, which must be allowed in a document, and what
follows the mark. -/
def upTo? (mark : List Char) : List Char → Option (List Char × List Char)
  | [] => none
  | c :: rest =>
    match Text.behind? mark (c :: rest) with
    | some behind => some ([], behind)
    | none =>
      if isDocumentChar c then (upTo? mark rest).map fun found => (c :: found.1, found.2)
      else none

/-- The number written by digits of a base, after an optional plus sign. -/
def referenceNumber? (base : Nat) (digits : List Char) : Option Nat :=
  let digits := match digits with
    | '+' :: rest => rest
    | _ => digits
  if digits.isEmpty then none
  else digits.foldlM (fun value digit =>
    match Text.hexValue? digit with
    | some next => if next < base then some (value * base + next) else none
    | none => none) 0

/-- The character a number stands for. -/
def scalar? (code : Nat) : Option Char :=
  if code.isValidChar then some (Char.ofNat code) else none

/-- The character that a reference stands for. -/
def reference? (name : List Char) : Option Char :=
  match name with
  | ['a', 'm', 'p'] => some '&'
  | ['l', 't'] => some '<'
  | ['g', 't'] => some '>'
  | ['q', 'u', 'o', 't'] => some '\x22'
  | ['a', 'p', 'o', 's'] => some '\x27'
  | '#' :: 'x' :: digits => (referenceNumber? 16 digits).bind scalar?
  | '#' :: digits => (referenceNumber? 10 digits).bind scalar?
  | _ => none

/-- Characters with references replaced.  `pending` holds the name of a
reference that is not closed yet, last character first; `blank` is what a
literal line end or tab becomes, where they are replaced. -/
def decode (inValue : Bool) : Option (List Char) → List Char → Option (List Char)
  | none, [] => some []
  | some _, [] => none
  | some name, ';' :: rest =>
    match reference? name.reverse with
    | some c => (decode inValue none rest).map (c :: ·)
    | none => none
  | some name, c :: rest => decode inValue (some (c :: name)) rest
  | none, '&' :: rest => decode inValue (some []) rest
  | none, '\r' :: '\n' :: rest =>
    (decode inValue none rest).map ((if inValue then ' ' else '\n') :: ·)
  | none, c :: rest =>
    let read :=
      if c = '\r' then (if inValue then ' ' else '\n')
      else if inValue ∧ (c = '\n' ∨ c = '\t') then ' '
      else c
    (decode inValue none rest).map (read :: ·)

/-- Literal text with its line ends as line feeds. -/
def plainLineEnds : List Char → List Char
  | [] => []
  | '\r' :: '\n' :: rest => '\n' :: plainLineEnds rest
  | c :: rest => (if c = '\r' then '\n' else c) :: plainLineEnds rest

/-- What follows blanks. -/
def skipSpace (text : List Char) : List Char := text.dropWhile isSpace

/-- What follows an equals sign with blanks around it. -/
def behindEquals? (text : List Char) : Option (List Char) :=
  match skipSpace text with
  | '=' :: rest => some (skipSpace rest)
  | _ => none

/-- Whether a character may stand around a value. -/
def isQuote (c : Char) : Bool := c == '\x22' || c == '\x27'

/-- The raw value between quotes, and what follows it. -/
def rawValue? : List Char → Option (List Char × List Char)
  | [] => none
  | quote :: rest =>
    if isQuote quote then
      match upTo? [quote] rest with
      | some (value, behind) => if value.contains '<' then none else some (value, behind)
      | none => none
    else none

/-- The attributes of a tag, whether it is closed at once, and what follows it,
in at most `fuel` attributes. -/
def attributes? : Nat → List Char → Option (List (QName × String) × Bool × List Char)
  | 0, _ => none
  | fuel + 1, text =>
    match skipSpace text with
    | '/' :: '>' :: rest => some ([], true, rest)
    | '>' :: rest => some ([], false, rest)
    | inner =>
      if text.head?.any isSpace then do
        let (name, afterName) ← qualifiedName? inner
        let afterEquals ← behindEquals? afterName
        let (raw, afterValue) ← rawValue? afterEquals
        let value ← decode true none raw
        let (others, closed, behind) ← attributes? fuel afterValue
        pure ((name, String.ofList value) :: others, closed, behind)
      else none

/-- A comment behind its opening mark. -/
def comment? (text : List Char) : Option (Event × List Char) :=
  match upTo? ['-', '-', '>'] text with
  | some (value, behind) =>
    if Text.occurs ['-', '-'] value || value.getLast? == some '-' then none
    else some (.comment (String.ofList value), behind)
  | none => none

/-- An instruction behind its opening mark. -/
def instruction? (text : List Char) : Option (Event × List Char) := do
  let (target, afterTarget) ← plainName? text
  let (data, behind) ← upTo? ['?', '>'] (skipSpace afterTarget)
  pure (.instruction (String.ofList target)
    (if data.isEmpty then none else some (String.ofList data)), behind)

/-- An end tag behind its opening mark. -/
def finish? (text : List Char) : Option (Event × List Char) := do
  let (name, afterName) ← qualifiedName? text
  match skipSpace afterName with
  | '>' :: behind => pure (.finish name, behind)
  | _ => none

/-- A start tag behind its opening mark. -/
def start? (text : List Char) : Option (Event × List Char) := do
  let (name, afterName) ← qualifiedName? text
  let (attributes, closed, behind) ← attributes? (afterName.length + 1) afterName
  pure (.start name attributes closed, behind)

/-- The declaration mark, which may stand at the very start only. -/
def declarationMark : List Char := ['<', '?', 'x', 'm', 'l', ' ']

/-- The mark before character data. -/
def dataMark : List Char := ['<', '!', '[', 'C', 'D', 'A', 'T', 'A', '[']

/-- An event of those that may stand outside of the root, when one starts here. -/
def aside? (text : List Char) : Option (Option (Event × List Char)) :=
  match text with
  | '<' :: '!' :: '-' :: '-' :: rest => some (comment? rest)
  | '<' :: '?' :: rest =>
    if declarationMark.isPrefixOf text then some none else some (instruction? rest)
  | _ => none

/-- The next event inside the root element. -/
def inner? (text : List Char) : Option (Event × List Char) :=
  match aside? text with
  | some found => found
  | none =>
    match Text.behind? dataMark text with
    | some rest =>
      (upTo? [']', ']', '>'] rest).map fun found =>
        (.text (String.ofList (plainLineEnds found.1)), found.2)
    | none =>
      match text with
      | '<' :: '/' :: rest => finish? rest
      | '<' :: rest => start? rest
      | _ =>
        let (value, behind) := text.span (· != '<')
        if value.all isDocumentChar && !Text.occurs [']', ']', '>'] value then
          (decode false none value).map fun found => (.text (String.ofList found), behind)
        else none

/-- The depth behind an event. -/
def depthBehind (depth : Nat) : Event → Nat
  | .start _ _ closed => if closed then depth else depth + 1
  | .finish _ => depth - 1
  | _ => depth

/-- Events from a place at which `depth` elements are open and the root is
`done` or not, in at most `fuel` steps. -/
def eventsFrom : Nat → Bool → Nat → List Char → Option (List Event)
  | _, _, _, [] => some []
  | 0, _, _, _ => none
  | fuel + 1, done, 0, c :: rest =>
    if isSpace c then eventsFrom fuel done 0 rest
    else match aside? (c :: rest) with
      | some none => none
      | some (some (event, behind)) => (eventsFrom fuel done 0 behind).map (event :: ·)
      | none =>
        if done ∨ c ≠ '<' then none
        else match start? rest with
          | some (event, behind) =>
            (eventsFrom fuel true (depthBehind 0 event) behind).map (event :: ·)
          | none => none
  | fuel + 1, done, depth + 1, c :: rest =>
    match inner? (c :: rest) with
    | some (event, behind) =>
      (eventsFrom fuel done (depthBehind (depth + 1) event) behind).map (event :: ·)
    | none => none

/-- A value of the declaration between quotes. -/
def declared? (text : List Char) : Option (List Char × List Char) :=
  (behindEquals? text).bind rawValue?

/-- What follows blanks, which must be there unless the declaration ends. -/
def behindGap? (text : List Char) : Option (List Char) :=
  if text.head?.any isSpace || text.isEmpty || ['?', '>'].isPrefixOf text then
    some (skipSpace text)
  else none

/-- The letters of the name of an encoding. -/
def isEncodingChar (c : Char) : Bool :=
  c.isAlphanum || c == '.' || c == '-' || c == '_'

/-- What follows the encoding of a declaration, if it names one. -/
def behindEncoding? (text : List Char) : Option (List Char) :=
  match Text.behind? "encoding".toList text with
  | none => some text
  | some rest =>
    match declared? rest with
    | some (value, behind) => if value.all isEncodingChar then behindGap? behind else none
    | none => none

/-- What follows the last part of a declaration, which may only say `yes`. -/
def behindStandalone? (text : List Char) : Option (List Char) :=
  match Text.behind? "standalone".toList text with
  | none => some text
  | some rest =>
    match declared? rest with
    | some (value, behind) => if value = "yes".toList then some behind else none
    | none => none

/-- What follows the declaration, when a text starts with one. -/
def behindDeclaration? (text : List Char) : Option (List Char) :=
  match Text.behind? declarationMark text with
  | none => some text
  | some rest => do
    let afterWord ← Text.behind? "version".toList (skipSpace rest)
    let (version, afterVersion) ← declared? afterWord
    if version = "1.0".toList then
      let beforeEncoding ← behindGap? afterVersion
      let beforeStandalone ← behindEncoding? beforeEncoding
      let beforeEnd ← behindStandalone? beforeStandalone
      Text.behind? ['?', '>'] (skipSpace beforeEnd)
    else none

/-- A text without the mark of its byte order. -/
def dropByteOrderMark : List Char → List Char
  | [] => []
  | c :: rest => if c = Char.ofNat 0xFEFF then rest else c :: rest

/-- The events of a whole text; every step takes a character, so the bound is enough. -/
def events (text : String) : Option (List Event) :=
  match behindDeclaration? (dropByteOrderMark text.toList) with
  | some content => eventsFrom content.length false 0 content
  | none => none

end EoAssembly.Xml
