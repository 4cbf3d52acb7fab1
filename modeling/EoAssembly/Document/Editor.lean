import EoAssembly.Document.Names

/-!
Contract: editing a document element by element.

Every element of an edited document carries a key, by which it is found again
wherever it moves; elements taken out of the document stay in the editor until
they are put back.

Owns:
- `Editor`, opening a document and keying what a pass has added;
- the queries of one element and the edits that add, move and take out elements.

Refused: moving the root element, moving an element into itself, and putting an
element before one that has no parent.
-/

namespace EoAssembly

namespace Xml.Content

/-- A forest in which every element has a key, counting from `next` where one is
missing, and the next free key. -/
def keyed (next : Nat) : Content → Content × Nat
  | .nil => (.nil, next)
  | .leaf node rest =>
    let (others, last) := rest.keyed next
    (.leaf node others, last)
  | .element tag children rest =>
    let (own, afterOwn) := match tag.key with
      | some _ => (tag, next)
      | none => ({ tag with key := some next }, next + 1)
    let (inner, afterInner) := children.keyed afterOwn
    let (others, last) := rest.keyed afterInner
    (.element own inner others, last)

/-- The element with a key, and its content. -/
def find? (key : Nat) : Content → Option (Tag × Content)
  | .nil => none
  | .leaf _ rest => rest.find? key
  | .element tag children rest =>
    if tag.key = some key then some (tag, children)
    else match children.find? key with
      | some found => some found
      | none => rest.find? key

/-- The parent of the element with a key: nothing when the element is not here,
and no tag when it is at the top of the forest, whose parent is `parent`. -/
def parentOf? (key : Nat) (parent : Option Tag) : Content → Option (Option Tag)
  | .nil => none
  | .leaf _ rest => rest.parentOf? key parent
  | .element tag children rest =>
    if tag.key = some key then some parent
    else match children.parentOf? key (some tag) with
      | some found => some found
      | none => rest.parentOf? key parent

/-- A forest with `change` made to the tag with a key. -/
def modifyTag (key : Nat) (change : Tag → Tag) : Content → Content
  | .nil => .nil
  | .leaf node rest => .leaf node (rest.modifyTag key change)
  | .element tag children rest =>
    .element (if tag.key = some key then change tag else tag)
      (children.modifyTag key change) (rest.modifyTag key change)

/-- A forest with `change` made to the content of the element with a key. -/
def modifyChildren (key : Nat) (change : Content → Content) : Content → Content
  | .nil => .nil
  | .leaf node rest => .leaf node (rest.modifyChildren key change)
  | .element tag children rest =>
    let inner := children.modifyChildren key change
    .element tag (if tag.key = some key then change inner else inner)
      (rest.modifyChildren key change)

/-- A forest without the element with a key. -/
def without (key : Nat) : Content → Content
  | .nil => .nil
  | .leaf node rest => .leaf node (rest.without key)
  | .element tag children rest =>
    if tag.key = some key then rest.without key
    else .element tag (children.without key) (rest.without key)

/-- A forest with an element before the one with a key. -/
def insertedBefore (key : Nat) (tag : Tag) (inner : Content) : Content → Content
  | .nil => .nil
  | .leaf node rest => .leaf node (insertedBefore key tag inner rest)
  | .element other children rest =>
    let stays := .element other (insertedBefore key tag inner children)
      (insertedBefore key tag inner rest)
    if other.key = some key then .element tag inner stays else stays

/-- Whether the element with a key is in a forest. -/
def hasKey (key : Nat) (content : Content) : Bool := (content.find? key).isSome

end Xml.Content

/-- A document under edit, the elements outside of it, and the next free key. -/
structure Editor where
  document : Document
  detached : List Xml.Content
  next : Nat

namespace Editor

/-- An editor whose document has keys on every element. -/
def withDocument (editor : Editor) (document : Document) : Editor :=
  let (whole, next) := document.whole.keyed editor.next
  { editor with document := document.withWhole whole, next := next }

/-- Opens a document. -/
def ofDocument (document : Document) : Editor :=
  (⟨document, [], 0⟩ : Editor).withDocument document

/-- The forests of an editor, that of the document first. -/
def forests (editor : Editor) : List Xml.Content :=
  editor.document.whole :: editor.detached

/-- The element with a key. -/
def find? (editor : Editor) (key : Nat) : Option (Xml.Tag × Xml.Content) :=
  editor.forests.findSome? (Xml.Content.find? key)

/-- The keys of elements. -/
def keysOf (elements : List (Xml.Tag × Xml.Content)) : List Nat :=
  elements.filterMap fun found => found.1.key

/-- The tag of the parent of an element, if it has one. -/
def parent? (editor : Editor) (key : Nat) : Option Xml.Tag :=
  (editor.forests.findSome? (Xml.Content.parentOf? key none)).join

/-- The enclosing object of an element. -/
def parentObject? (editor : Editor) (key : Nat) : Option Nat :=
  ((editor.parent? key).filter fun tag => tag.isNamed objectLabel).bind Xml.Tag.key

/-- The objects under an element. -/
def childObjects (editor : Editor) (key : Nat) : List Nat :=
  match editor.find? key with
  | some (_, content) => keysOf (Document.childObjects content)
  | none => []

/-- The tag of an element. -/
def tag? (editor : Editor) (key : Nat) : Option Xml.Tag :=
  (editor.find? key).map Prod.fst

/-- The text inside an element. -/
def text (editor : Editor) (key : Nat) : String :=
  match editor.find? key with
  | some (_, content) => content.text
  | none => ""

/-- An editor with `change` made to every forest. -/
def mapForests (editor : Editor) (change : Xml.Content → Xml.Content) : Editor :=
  { editor with
    document := editor.document.withWhole (change editor.document.whole)
    detached := editor.detached.map change }

/-- An editor with `change` made to the tag of an element. -/
def modifyTag (editor : Editor) (key : Nat) (change : Xml.Tag → Xml.Tag) : Editor :=
  editor.mapForests (Xml.Content.modifyTag key change)

/-- A new object outside of the document. -/
def create (editor : Editor) : Nat × Editor :=
  let tag := { Xml.Tag.plain objectLabel with key := some editor.next }
  (editor.next,
    { editor with
      detached := editor.detached ++ [.single tag .nil]
      next := editor.next + 1 })

/-- The cause of a move that the shape of the document forbids. -/
def misplacedNode (editor : Editor) : Failure :=
  .document editor.document.label "invalid operation"

/-- Takes an element out of the forest it is in. -/
def takeOut (editor : Editor) (key : Nat) : Editor :=
  let others := editor.detached.filter fun forest =>
    match forest with
    | .element tag _ _ => tag.key != some key
    | _ => true
  { editor with
    document := editor.document.withWhole (editor.document.whole.without key)
    detached := others.map (Xml.Content.without key) }

/-- The element that is to move, unless it is the root or holds the element at `target`. -/
def movable (editor : Editor) (key target : Nat) : Except Failure (Xml.Tag × Xml.Content) :=
  if editor.document.root.tag.key = some key || key == target then .error editor.misplacedNode
  else match editor.find? key with
    | some (tag, content) =>
      if content.hasKey target then .error editor.misplacedNode else .ok (tag, content)
    | none => .error editor.misplacedNode

/-- Moves an element to the end of the content of another one. -/
def append (editor : Editor) (parent key : Nat) : Except Failure Editor :=
  match editor.movable key parent with
  | .error failure => .error failure
  | .ok (tag, content) =>
    .ok ((editor.takeOut key).mapForests (Xml.Content.modifyChildren parent fun children =>
      children.append (.single tag content)))

/-- Moves an element right before another one. -/
def insertBefore (editor : Editor) (reference key : Nat) : Except Failure Editor :=
  match editor.movable key reference with
  | .error failure => .error failure
  | .ok (tag, content) =>
    match editor.parent? reference with
    | none => .error editor.misplacedNode
    | some _ =>
      .ok ((editor.takeOut key).mapForests (Xml.Content.insertedBefore reference tag content))

/-- Takes an element out of its parent. -/
def detach (editor : Editor) (key : Nat) : Except Failure Editor :=
  if editor.document.root.tag.key = some key then .error editor.misplacedNode
  else match editor.find? key with
    | none => .ok editor
    | some (tag, content) =>
      let rest := editor.takeOut key
      .ok { rest with detached := rest.detached ++ [.single tag content] }

end Editor

end EoAssembly
