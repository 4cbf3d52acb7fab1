import EoAssembly.Document.Basic
import EoAssembly.Failure
import EoAssembly.Text.Pieces

/-!
Contract: nested abstract declarations move up to the `objects` level.

A nested declaration is an abstract object whose parent is an object.  Its full
name joins the names along the unbroken chain of objects around it with `$`; an
object without a name counts as `α` and its position among the objects of its
parent.  At its place stays a reference with the full name as base, and the
declaration itself goes to the end of `objects` under its full name, the deeper
ones first and those of one depth in document order.

Owns `abstractsFloatUp` and the walk `lift`, which does all this in one go: no
name along a chain depends on a declaration moved before.
-/

namespace EoAssembly.Pass

/-- The character between the names of a chain. -/
def scopeMark : Char := '$'

/-- A declaration on its way up: the number of objects around it, and itself
under its full name. -/
structure Floated where
  depth : Nat
  tag : Xml.Tag
  content : Xml.Content
  deriving DecidableEq

/-- The name of an object, or its position among the objects of its parent. -/
def ownName (tag : Xml.Tag) (index : Nat) : String :=
  (tag.get? "name").getD s!"α{index}"

/-- An object with an attribute of another one, when that one has it. -/
def copyAttribute (key : String) (source target : Xml.Tag) : Xml.Tag :=
  match source.get? key with
  | some value => target.set key value
  | none => target

/-- The reference left behind by a declaration. -/
def referenceTo (full : String) (tag : Xml.Tag) : Xml.Tag :=
  copyAttribute "pos" tag (copyAttribute "line" tag (copyAttribute "name" tag
    ((Xml.Tag.plain objectLabel).set "base" full)))

/-- Replaces the nested declarations of a forest and collects them in document
order.  `chain` holds the names of the objects around the forest, outermost
first, and is empty when its parent is no object; `index` counts the objects
before it under the same parent. -/
def lift (chain : List String) (index : Nat) : Xml.Content → Xml.Content × List Floated
  | .nil => (.nil, [])
  | .leaf node rest =>
    let (others, later) := lift chain index rest
    (.leaf node others, later)
  | .element tag children rest =>
    if tag.isNamed objectLabel then
      let names := chain ++ [ownName tag (if chain.isEmpty then 0 else index)]
      let (inner, nested) := lift names 0 children
      let (others, later) := lift chain (index + 1) rest
      if !chain.isEmpty && tag.has "abstract" then
        let full := Text.joinAll scopeMark names
        (.element (referenceTo full tag) .nil others,
          ⟨chain.length, tag.set "name" full, inner⟩ :: nested ++ later)
      else
        (.element tag inner others, nested ++ later)
    else
      let (inner, nested) := lift [] 0 children
      let (others, later) := lift chain index rest
      (.element tag inner others, nested ++ later)

/-- Declarations in the order in which they are appended. -/
def deepestFirst (floated : List Floated) : List Floated :=
  floated.mergeSort fun left right => decide (right.depth ≤ left.depth)

/-- Declarations as a forest. -/
def forestOf : List Floated → Xml.Content
  | [] => .nil
  | declaration :: rest => .element declaration.tag declaration.content (forestOf rest)

/-- The cause of a document without a list of objects. -/
def withoutObjects (label : String) : Failure :=
  .document label "No <objects> element"

/-- Moves every nested declaration to the end of `objects`. -/
def abstractsFloatUp (document : Document) : Except Failure Document :=
  match document.objects? with
  | none => .error (withoutObjects document.label)
  | some _ =>
    let (whole, floated) := lift [] 0 document.whole
    let lifted := document.withWhole whole
    .ok (lifted.withContent (lifted.root.content.modifyFirst objectsLabel fun content =>
      content.append (forestOf (deepestFirst floated))))

end EoAssembly.Pass
