/-!
Contract: the characters and the names of XML.

Owns:
- the character classes of a document, of a name and of the start of a name;
- `QName`, a name with an optional part before a colon, and its reader.
-/

namespace EoAssembly.Xml

/-- Whether a code lies in one of the ranges, both ends included. -/
def within (ranges : List (Nat × Nat)) (code : Nat) : Bool :=
  ranges.any fun range => range.1 ≤ code && code ≤ range.2

/-- The characters a document may hold. -/
def isDocumentChar (c : Char) : Bool :=
  within [(0x9, 0xA), (0xD, 0xD), (0x20, 0xD7FF), (0xE000, 0xFFFD), (0x10000, 0x10FFFF)] c.toNat

/-- Blanks of the markup. -/
def isSpace (c : Char) : Bool :=
  c == ' ' || c == '\t' || c == '\n' || c == '\r'

/-- The codes at which a name may start. -/
def nameStartRanges : List (Nat × Nat) :=
  [(0x3A, 0x3A), (0x41, 0x5A), (0x5F, 0x5F), (0x61, 0x7A), (0xC0, 0xD6), (0xD8, 0xF6),
    (0xF8, 0x2FF), (0x370, 0x37D), (0x37F, 0x1FFF), (0x200C, 0x200D), (0x2070, 0x218F),
    (0x2C00, 0x2FEF), (0x3001, 0xD7FF), (0xF900, 0xFDCF), (0xFDF0, 0xFFFD), (0x10000, 0xEFFFF)]

/-- The further codes of a name. -/
def nameInnerRanges : List (Nat × Nat) :=
  [(0x2D, 0x2E), (0x30, 0x39), (0xB7, 0xB7), (0x300, 0x36F), (0x203F, 0x2040)]

/-- The characters at which a name may start. -/
def isNameStart (c : Char) : Bool := within nameStartRanges c.toNat

/-- The characters of a name. -/
def isNameChar (c : Char) : Bool := isNameStart c || within nameInnerRanges c.toNat

/-- A name as written: the part before the colon, empty when there is none, and
the part behind it. -/
structure QName where
  space : String
  label : String
  deriving DecidableEq

/-- Whether a text starts like a name. -/
def startsAsName : List Char → Bool
  | [] => false
  | c :: _ => isNameStart c

/-- A name with at most one colon at the start of a list, and what follows it. -/
def qualifiedName? (text : List Char) : Option (QName × List Char) :=
  let (written, behind) := text.span isNameChar
  match written.span (· != ':') with
  | (label, []) =>
    if startsAsName label then some (⟨"", String.ofList label⟩, behind) else none
  | (space, _ :: label) =>
    if label.contains ':' then none
    else if (space.isEmpty || startsAsName space) && startsAsName label then
      some (⟨String.ofList space, String.ofList label⟩, behind)
    else none

/-- A name at the start of a list where colons are letters, and what follows it. -/
def plainName? (text : List Char) : Option (List Char × List Char) :=
  let (written, behind) := text.span isNameChar
  if startsAsName written then some (written, behind) else none

end EoAssembly.Xml
