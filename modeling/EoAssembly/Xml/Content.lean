/-!
Contract: the content of XML elements as a forest.

A forest is a sequence of nodes: each step is a leaf or an element with a forest
of its own, followed by the rest.  Every walk over a document is a structural
recursion on `Content`.

Owns:
- names with the namespace they mean, attributes, namespace declarations, tags
  and leaves;
- reading, setting and removing attributes in no namespace;
- the elements of a given name in no namespace, and the text inside a forest.
-/

namespace EoAssembly.Xml

/-- A name: the namespace it means, its own part, and the part before the colon
it was written with. -/
structure Name where
  space : String
  label : String
  uri : String
  deriving DecidableEq

/-- A name in no namespace. -/
def Name.plain (label : String) : Name := ⟨"", label, ""⟩

/-- Whether a name is the one called `label` in no namespace. -/
def Name.isPlain (name : Name) (label : String) : Bool :=
  name.uri == "" && name.label == label

/-- An attribute of an element. -/
structure Attribute where
  name : Name
  value : String
  deriving DecidableEq

/-- A declared namespace; an empty `space` declares that of unmarked elements. -/
structure Declaration where
  space : String
  uri : String
  deriving DecidableEq

/-- All of an element but its content.  `key` tells elements of one document
apart where that matters; reading and writing ignore it. -/
structure Tag where
  name : Name
  declarations : List Declaration
  attributes : List Attribute
  key : Option Nat
  deriving DecidableEq

/-- A node without content of its own. -/
inductive Leaf where
  | text (value : String)
  | comment (value : String)
  | instruction (target : String) (data : Option String)
  deriving DecidableEq

/-- A sequence of nodes. -/
inductive Content where
  | nil
  | leaf (node : Leaf) (rest : Content)
  | element (tag : Tag) (children rest : Content)
  deriving DecidableEq

namespace Tag

/-- An element in no namespace without attributes. -/
def plain (label : String) : Tag := ⟨.plain label, [], [], none⟩

/-- Whether an element is called `label` and is in no namespace. -/
def isNamed (tag : Tag) (label : String) : Bool := tag.name.isPlain label

/-- The value of the attribute `key`. -/
def get? (tag : Tag) (key : String) : Option String :=
  (tag.attributes.find? fun item => item.name.isPlain key).map Attribute.value

/-- Whether there is an attribute `key`. -/
def has (tag : Tag) (key : String) : Bool := (tag.get? key).isSome

/-- Attributes with the value of `key` set: at its place, or else at the end. -/
def setIn (key value : String) : List Attribute → List Attribute
  | [] => [⟨.plain key, value⟩]
  | item :: rest =>
    if item.name.isPlain key then ⟨item.name, value⟩ :: rest
    else item :: setIn key value rest

/-- The element with the attribute `key` set. -/
def set (tag : Tag) (key value : String) : Tag :=
  { tag with attributes := setIn key value tag.attributes }

/-- The element without the attribute `key`. -/
def remove (tag : Tag) (key : String) : Tag :=
  { tag with attributes := tag.attributes.filter fun item => !item.name.isPlain key }

end Tag

namespace Content

/-- One forest behind another. -/
def append : Content → Content → Content
  | .nil, behind => behind
  | .leaf node rest, behind => .leaf node (rest.append behind)
  | .element tag children rest, behind => .element tag children (rest.append behind)

/-- A single element as a forest. -/
def single (tag : Tag) (children : Content) : Content := .element tag children .nil

/-- Whether there is no node. -/
def isEmpty : Content → Bool
  | .nil => true
  | _ => false

/-- All text inside a forest, in document order. -/
def text : Content → String
  | .nil => ""
  | .leaf (.text value) rest => value ++ rest.text
  | .leaf _ rest => rest.text
  | .element _ children rest => children.text ++ rest.text

/-- The top elements called `label` in no namespace, with their content. -/
def named (label : String) : Content → List (Tag × Content)
  | .nil => []
  | .leaf _ rest => rest.named label
  | .element tag children rest =>
    if tag.isNamed label then (tag, children) :: rest.named label else rest.named label

/-- All elements called `label` in no namespace with their content, in document
order. -/
def allNamed (label : String) : Content → List (Tag × Content)
  | .nil => []
  | .leaf _ rest => rest.allNamed label
  | .element tag children rest =>
    (if tag.isNamed label then [(tag, children)] else []) ++ children.allNamed label
      ++ rest.allNamed label

/-- A forest with `change` made to every tag called `label` in no namespace. -/
def mapNamed (label : String) (change : Tag → Tag) : Content → Content
  | .nil => .nil
  | .leaf node rest => .leaf node (rest.mapNamed label change)
  | .element tag children rest =>
    .element (if tag.isNamed label then change tag else tag)
      (children.mapNamed label change) (rest.mapNamed label change)

/-- A forest with `change` made to the content of its first top element called
`label` in no namespace. -/
def modifyFirst (label : String) (change : Content → Content) : Content → Content
  | .nil => .nil
  | .leaf node rest => .leaf node (rest.modifyFirst label change)
  | .element tag children rest =>
    if tag.isNamed label then .element tag (change children) rest
    else .element tag children (rest.modifyFirst label change)

end Content

end EoAssembly.Xml
