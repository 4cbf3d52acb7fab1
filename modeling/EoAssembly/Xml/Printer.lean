import EoAssembly.Xml.Reader

/-!
Contract: the written form of XML content.

An element without children is written as one closed tag, declarations stand
before attributes, and values stand in double quotes.  Nothing is written around
the nodes, and no declaration of the document.

A name in a namespace is written with the prefix it was read with while that
prefix still has its meaning, and else with another prefix of that meaning; when
there is none the content can't be written.
-/

namespace EoAssembly.Xml

/-- A character of a text as written. -/
def escapeText (c : Char) : List Char :=
  if c = '&' then "&amp;".toList
  else if c = '<' then "&lt;".toList
  else if c = '>' then "&gt;".toList
  else [c]

/-- A character of a value as written. -/
def escapeValue (c : Char) : List Char :=
  if c = '&' then "&amp;".toList
  else if c = '<' then "&lt;".toList
  else if c = '\x27' then "&apos;".toList
  else if c = '\x22' then "&quot;".toList
  else [c]

/-- A value between quotes. -/
def quotedValue (value : String) : List Char :=
  '\x22' :: value.toList.flatMap escapeValue ++ ['\x22']

/-- A name behind a prefix. -/
def withSpace (space label : String) : List Char :=
  if space = "" then label.toList else space.toList ++ ':' :: label.toList

/-- Whether a prefix has a meaning at a place. -/
def Scope.means (scope : Scope) (space uri : String) : Bool :=
  scope.meaning? space == some uri

/-- The prefix that a name is written with; an attribute needs a real one. -/
def writtenSpace? (scope : Scope) (forAttribute : Bool) (name : Name) : Option String :=
  let usable := fun space => scope.means space name.uri && !(forAttribute && space == "")
  if name.uri = "" then some ""
  else if usable name.space then some name.space
  else (scope.find? fun declared => usable declared.space).map Declaration.space

/-- A name as written. -/
def writtenName? (scope : Scope) (forAttribute : Bool) (name : Name) : Option (List Char) :=
  (writtenSpace? scope forAttribute name).map fun space => withSpace space name.label

/-- A declaration as written, with the blank before it. -/
def writtenDeclaration (declared : Declaration) : List Char :=
  ' ' :: (if declared.space = "" then "xmlns".toList else withSpace "xmlns" declared.space)
    ++ '=' :: quotedValue declared.uri

/-- Attributes as written, each with the blank before it. -/
def writtenAttributes? (scope : Scope) : List Attribute → Option (List Char)
  | [] => some []
  | item :: rest =>
    match writtenName? scope true item.name, writtenAttributes? scope rest with
    | some name, some others => some (' ' :: name ++ '=' :: quotedValue item.value ++ others)
    | _, _ => none

/-- A leaf as written. -/
def writtenLeaf : Leaf → List Char
  | .text value => value.toList.flatMap escapeText
  | .comment value => "<!--".toList ++ value.toList ++ "-->".toList
  | .instruction target none => "<?".toList ++ target.toList ++ "?>".toList
  | .instruction target (some data) =>
    "<?".toList ++ target.toList ++ ' ' :: data.toList ++ "?>".toList

/-- A forest as written inside of `scope`. -/
def writtenContent? (scope : Scope) : Content → Option (List Char)
  | .nil => some []
  | .leaf node rest => (writtenContent? scope rest).map (writtenLeaf node ++ ·)
  | .element tag children rest => do
    let inside := tag.declarations.reverse ++ scope
    let name ← writtenName? inside false tag.name
    let attributes ← writtenAttributes? inside tag.attributes
    let content ← writtenContent? inside children
    let others ← writtenContent? scope rest
    let opening := '<' :: name ++ tag.declarations.flatMap writtenDeclaration ++ attributes
    if children.isEmpty then
      pure (opening ++ '/' :: '>' :: others)
    else
      pure (opening ++ '>' :: content ++ '<' :: '/' :: name ++ '>' :: others)

/-- A root element and the leaves around it as written. -/
def Root.render? (root : Root) : Option String :=
  (writtenContent? outerScope (.element root.tag root.content .nil)).map fun element =>
    String.ofList (root.before.flatMap writtenLeaf ++ element ++ root.after.flatMap writtenLeaf)

end EoAssembly.Xml
