import EoAssembly.Document.Editor
import EoAssembly.Pass.FloatUp

/-!
Contract: nested declarations move up one after the other, in an edited document.

The declarations and the order of their moves are read from the document before the first move.
Each move reads the names and the chain of objects from the document as it is then: a reference
with the full name goes before the declaration, the declaration is taken out and renamed, and it
becomes the last of the top-level objects.

Owns `floatInPlace`, the same pass as `abstractsFloatUp` as a sequence of edits.
-/

namespace EoAssembly

/-- A forest whose elements have no keys. -/
def Xml.Content.unkeyed : Xml.Content → Xml.Content
  | .nil => .nil
  | .leaf node rest => .leaf node rest.unkeyed
  | .element tag children rest =>
    .element { tag with key := none } children.unkeyed rest.unkeyed

/-- A document whose elements have no keys. -/
def Document.unkeyed (document : Document) : Document :=
  document.withWhole document.whole.unkeyed

namespace Editor

/-- The element that lists the top-level objects. -/
def objects? (editor : Editor) : Option Nat :=
  editor.document.objects?.bind fun found => found.1.key

/-- All objects of the document. -/
def allObjects (editor : Editor) : List Nat := keysOf editor.document.allObjects

/-- Whether an element has the attribute `name`. -/
def hasAttribute (editor : Editor) (key : Nat) (name : String) : Bool :=
  (editor.tag? key).any fun tag => tag.has name

/-- The number of objects around an element, of which at most `reach` are looked at. -/
def depth (editor : Editor) : Nat → Nat → Nat
  | 0, _ => 0
  | reach + 1, key =>
    match editor.parentObject? key with
    | some parent => editor.depth reach parent + 1
    | none => 0

/-- The position of an element among the objects of its parent, if that is an object. -/
def position (editor : Editor) (key : Nat) : Nat :=
  match editor.parentObject? key with
  | some parent => ((editor.childObjects parent).idxOf? key).getD 0
  | none => 0

/-- The name of an object, or its position. -/
def nameOf (editor : Editor) (key : Nat) : String :=
  Pass.ownName ((editor.tag? key).getD (.plain objectLabel)) (editor.position key)

/-- The names of the objects around an element and its own, outermost first. -/
def chainOf (editor : Editor) : Nat → Nat → List String
  | 0, key => [editor.nameOf key]
  | reach + 1, key =>
    match editor.parentObject? key with
    | some parent => editor.chainOf reach parent ++ [editor.nameOf key]
    | none => [editor.nameOf key]

/-- Moves a declaration to the end of the objects under `list`. -/
def moveUp (list : Nat) (editor : Editor) (key : Nat) : Except Failure Editor :=
  let full := Text.joinAll Pass.scopeMark (editor.chainOf editor.next key)
  let source := (editor.tag? key).getD (.plain objectLabel)
  let (reference, created) := editor.create
  let described := created.modifyTag reference fun tag =>
    Pass.copyAttribute "pos" source (Pass.copyAttribute "line" source
      (Pass.copyAttribute "name" source (tag.set "base" full)))
  match described.insertBefore key reference with
  | .error failure => .error failure
  | .ok placed =>
    match placed.detach key with
    | .error failure => .error failure
    | .ok loose => (loose.modifyTag key fun tag => tag.set "name" full).append list key

/-- Moves declarations in turn, up to the first move that is refused. -/
def moveAll (list : Nat) : List Nat → Editor → Except Failure Editor
  | [], editor => .ok editor
  | key :: others, editor =>
    match editor.moveUp list key with
    | .error failure => .error failure
    | .ok next => moveAll list others next

/-- The nested declarations with their depths, the deeper ones first. -/
def turns (editor : Editor) : List (Nat × Nat) :=
  ((editor.allObjects.filter fun key =>
      editor.hasAttribute key "abstract" && (editor.parentObject? key).isSome).map
    fun key => (editor.depth editor.next key, key)).mergeSort
      fun left right => decide (right.1 ≤ left.1)

/-- Moves every nested declaration of an edited document. -/
def floatUp (editor : Editor) : Except Failure Editor :=
  match editor.objects? with
  | none => .error (Pass.withoutObjects editor.document.label)
  | some list => moveAll list (editor.turns.map Prod.snd) editor

end Editor

/-- Moves every nested declaration of a document by editing it. -/
def Pass.floatInPlace (document : Document) : Except Failure Document :=
  match (Editor.ofDocument document.unkeyed).floatUp with
  | .error failure => .error failure
  | .ok editor => .ok editor.document.unkeyed

end EoAssembly
