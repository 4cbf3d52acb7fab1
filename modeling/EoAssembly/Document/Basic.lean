import EoAssembly.Disk
import EoAssembly.Failure
import EoAssembly.Xml.Printer

/-!
Contract: documents of one program, in memory and on a disk.

A document has a `<program>` root whose `<objects>` child lists the top-level
objects; an object is an element `<o>` in no namespace.  The label of a document
names it in messages.

Owns:
- `Document`, its reader, its written form, loading and saving;
- the objects of a document: all of them, the top ones, the children of one.
-/

namespace EoAssembly

/-- The name of object elements. -/
def objectLabel : String := "o"

/-- The name of the element that lists the top-level objects. -/
def objectsLabel : String := "objects"

/-- A document in memory. -/
structure Document where
  label : String
  root : Xml.Root
  deriving DecidableEq

namespace Document

/-- The cause of a text that is no document. -/
def unreadable (label : String) : Failure :=
  .document label "not a well-formed document"

/-- The cause of a name that no declared prefix can write. -/
def unwritable (label : String) : Failure :=
  .document label "missing prefix for a namespace"

/-- Reads a document from its text. -/
def ofText (text label : String) : Except Failure Document :=
  match Xml.readRoot text with
  | some root => .ok ⟨label, root⟩
  | none => .error (unreadable label)

/-- The text of a document. -/
def render (document : Document) : Except Failure String :=
  match document.root.render? with
  | some text => .ok text
  | none => .error (unwritable document.label)

/-- Reads the document at a path, which becomes its label. -/
def load (disk : Disk) (path : Path) : Except Failure Document :=
  match disk.readText path with
  | .ok text => ofText text path.text
  | .error refusal => .error (.document path.text refusal.message)

/-- The cause of a file that could not be written. -/
def writeRefused (path : Path) (refusal : Refusal) : Failure :=
  .filesystem s!"Failed to write '{path.text}': {refusal.message}"

/-- Writes a text file and the directories above it. -/
def writeBelow (disk : Disk) (path : Path) (text : String) : Except Failure Unit × Disk :=
  match disk.createParent path with
  | (.error refusal, next) => (.error (.host refusal.message), next)
  | (.ok (), next) =>
    match next.writeText path text with
    | (.error refusal, last) => (.error (writeRefused path refusal), last)
    | (.ok (), last) => (.ok (), last)

/-- Writes a document to a path; nothing is touched when it has no text. -/
def save (document : Document) (disk : Disk) (path : Path) : Except Failure Unit × Disk :=
  match document.render with
  | .error failure => (.error failure, disk)
  | .ok text => writeBelow disk path text

/-- The root element as a forest. -/
def whole (document : Document) : Xml.Content :=
  .element document.root.tag document.root.content .nil

/-- A document with another root element. -/
def withWhole (document : Document) : Xml.Content → Document
  | .element tag children _ =>
    { document with root := { document.root with tag := tag, content := children } }
  | _ => document

/-- A document with another content of its root element. -/
def withContent (document : Document) (content : Xml.Content) : Document :=
  { document with root := { document.root with content := content } }

/-- The name of the program, or else the label. -/
def name (document : Document) : String :=
  (document.root.tag.get? "name").getD document.label

/-- The element that lists the top-level objects, if there is one. -/
def objects? (document : Document) : Option (Xml.Tag × Xml.Content) :=
  (document.root.content.named objectsLabel).head?

/-- The objects among the top nodes of a forest. -/
def childObjects (content : Xml.Content) : List (Xml.Tag × Xml.Content) :=
  content.named objectLabel

/-- The top-level objects. -/
def topObjects (document : Document) : List (Xml.Tag × Xml.Content) :=
  match document.objects? with
  | some (_, content) => childObjects content
  | none => []

/-- Every object in document order, with its content. -/
def allObjects (document : Document) : List (Xml.Tag × Xml.Content) :=
  document.whole.allNamed objectLabel

/-- A document with `change` made to every object. -/
def mapObjects (document : Document) (change : Xml.Tag → Xml.Tag) : Document :=
  document.withWhole (document.whole.mapNamed objectLabel change)

/-- A forest with `change` made to its top objects. -/
def mapTop (change : Xml.Tag → Xml.Tag) : Xml.Content → Xml.Content
  | .nil => .nil
  | .leaf node rest => .leaf node (mapTop change rest)
  | .element tag children rest =>
    .element (if tag.isNamed objectLabel then change tag else tag) children (mapTop change rest)

end Document

end EoAssembly
