import EoAssembly.Xml.Content
import EoAssembly.Xml.Event

/-!
Contract: from the events of an XML text to its content.

Owns:
- what prefixes mean inside each element;
- the nesting of events into a forest, where neighbouring texts are one leaf;
- `readRoot`, the one root element with the leaves before and after it.

Refused: a prefix without a declaration, an attribute or an identifier given
twice, and an end that does not belong to its start.
-/

namespace EoAssembly.Xml

/-- The namespace that the prefix `xml` always means. -/
def xmlSpace : String := "http://www.w3.org/XML/1998/namespace"

/-- The prefixes known at a place, the innermost declaration first. -/
abbrev Scope := List Declaration

/-- What is known outside of every element. -/
def outerScope : Scope := [⟨"xml", xmlSpace⟩]

/-- What a prefix means; no prefix means no namespace unless one is declared. -/
def Scope.meaning? (scope : Scope) (space : String) : Option String :=
  match scope.find? fun declared => declared.space == space with
  | some declared => some declared.uri
  | none => if space = "" then some "" else none

/-- The declaration an attribute makes, if it makes one. -/
def declarationOf? (name : QName) (value : String) : Option Declaration :=
  if name.space = "xmlns" then some ⟨name.label, value⟩
  else if name.space = "" ∧ name.label = "xmlns" then some ⟨"", value⟩
  else none

/-- Declarations with one more; a prefix keeps its place when it comes again. -/
def addDeclaration (next : Declaration) : List Declaration → List Declaration
  | [] => [next]
  | other :: rest =>
    if other.space = next.space then next :: rest else other :: addDeclaration next rest

/-- The declarations among attributes. -/
def declarationsOf (attributes : List (QName × String)) : List Declaration :=
  attributes.foldl (fun found item =>
    match declarationOf? item.1 item.2 with
    | some declared => addDeclaration declared found
    | none => found) []

/-- The name of an element. -/
def elementName? (scope : Scope) (name : QName) : Option Name :=
  (scope.meaning? name.space).map fun uri => ⟨name.space, name.label, uri⟩

/-- The name of an attribute, which is in a namespace only by its prefix. -/
def attributeName? (scope : Scope) (name : QName) : Option Name :=
  if name.space = "" then some (.plain name.label) else elementName? scope name

/-- The attributes that are no declarations. -/
def attributesOf? (scope : Scope) : List (QName × String) → Option (List Attribute)
  | [] => some []
  | (name, value) :: rest =>
    match declarationOf? name value with
    | some _ => attributesOf? scope rest
    | none =>
      match attributeName? scope name, attributesOf? scope rest with
      | some read, some others =>
        if others.any fun other => other.name.uri == read.uri && other.name.label == read.label
        then none else some (⟨read, value⟩ :: others)
      | _, _ => none

/-- The tag of a start event, and what is known inside of it. -/
def tagOf? (scope : Scope) (name : QName) (attributes : List (QName × String)) :
    Option (Tag × Scope) := do
  let declarations := declarationsOf attributes
  let inside := declarations.reverse ++ scope
  let element ← elementName? inside name
  let read ← attributesOf? inside attributes
  pure (⟨element, declarations, read, none⟩, inside)

/-- A forest with a text in front, joined with a text that stands there. -/
def consText (value : String) : Content → Content
  | .leaf (.text next) rest => .leaf (.text (value ++ next)) rest
  | rest => .leaf (.text value) rest

/-- The leaf of an event that is no tag. -/
def leafOf? : Event → Option Leaf
  | .comment value => some (.comment value)
  | .instruction target data => some (.instruction target data)
  | _ => none

/-- Whether an end names the element that is open. -/
def closes (scope : Scope) (tag : Tag) (name : QName) : Bool :=
  match elementName? scope name with
  | some found => found.uri == tag.name.uri && found.label == tag.name.label
  | none => false

/-- The content of the element `tag` up to its end, and the events behind it, in
at most `fuel` steps. -/
def contentOf? (scope : Scope) (tag : Tag) : Nat → List Event → Option (Content × List Event)
  | 0, _ => none
  | _, [] => none
  | _ + 1, .finish name :: rest =>
    if closes scope tag name then some (.nil, rest) else none
  | fuel + 1, .text value :: rest =>
    (contentOf? scope tag fuel rest).map fun found => (consText value found.1, found.2)
  | fuel + 1, .start name attributes closed :: rest => do
    let (inner, inside) ← tagOf? scope name attributes
    let (children, behind) ←
      if closed then some (.nil, rest) else contentOf? inside inner fuel rest
    let (others, last) ← contentOf? scope tag fuel behind
    pure (.element inner children others, last)
  | fuel + 1, event :: rest =>
    match leafOf? event, contentOf? scope tag fuel rest with
    | some leaf, some (others, last) => some (.leaf leaf others, last)
    | _, _ => none

/-- The identifiers given by `xml:id` anywhere in a forest. -/
def identifiers : Content → List String
  | .nil => []
  | .leaf _ rest => identifiers rest
  | .element tag children rest =>
    (tag.attributes.filterMap fun item =>
      if item.name.uri == xmlSpace && item.name.label == "id" then some item.value else none)
      ++ identifiers children ++ identifiers rest

/-- Whether no text occurs twice. -/
def allDistinct : List String → Bool
  | [] => true
  | first :: rest => !rest.contains first && allDistinct rest

/-- A root element and the leaves around it. -/
structure Root where
  before : List Leaf
  tag : Tag
  content : Content
  after : List Leaf
  deriving DecidableEq

/-- The root at the start of events, behind the leaves in `before`. -/
def rootOf? (before : List Leaf) : List Event → Option Root
  | [] => none
  | .start name attributes closed :: rest => do
    let (tag, inside) ← tagOf? outerScope name attributes
    let (content, behind) ←
      if closed then some (.nil, rest) else contentOf? inside tag (rest.length + 1) rest
    let after ← behind.mapM leafOf?
    if allDistinct (identifiers (.element tag content .nil)) then
      pure ⟨before, tag, content, after⟩
    else none
  | event :: rest =>
    match leafOf? event with
    | some leaf => rootOf? (before ++ [leaf]) rest
    | none => none

/-- Reads a whole text. -/
def readRoot (text : String) : Option Root :=
  (events text).bind (rootOf? [])

end EoAssembly.Xml
