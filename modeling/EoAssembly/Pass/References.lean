import EoAssembly.Document.Names

/-!
Contract: references to declarations in scope, by the line of the declaration.

The scopes of an object are the objects under its parent, then those under the
parent of its parent and so on while the parents are objects, and last the
top-level objects.  A declaration counts when it has a name and a line, and no
object counts for itself.

Owns `addRefs`, which sets `ref` where a scope declares the base,
`fixMissedNames`, which moves what is left into the default package, and
`brokenRefs`, which refuses a reference to a line that no object has.
-/

namespace EoAssembly.Pass

/-- A declaration as its scope sees it. -/
structure Declared where
  name : String
  line : String
  deriving DecidableEq

/-- What an object declares, if it has a name and a line. -/
def declaredBy? (tag : Xml.Tag) : Option Declared :=
  match tag.get? "name", tag.get? "line" with
  | some name, some line => some ⟨name, line⟩
  | _, _ => none

/-- The objects of one parent, in order, as what they declare. -/
abbrev ScopeLevel := List (Option Declared)

/-- The scope level of a forest. -/
def levelOf (content : Xml.Content) : ScopeLevel :=
  (Document.childObjects content).map fun object => declaredBy? object.1

/-- The line of the first declaration of a name. -/
def lineIn? (base : String) : ScopeLevel → Option String
  | [] => none
  | some declared :: rest => if declared.name = base then some declared.line else lineIn? base rest
  | none :: rest => lineIn? base rest

/-- A level without the object at a position. -/
def withoutObject (level : ScopeLevel) (index : Nat) : ScopeLevel := level.eraseIdx index

/-- The levels an object searches, where the innermost level and the top level
leave out the object itself; `atTop` tells that it is a top-level object. -/
def levelsFor (chain : List ScopeLevel) (top : ScopeLevel) (atTop : Bool) (index : Nat) :
    List ScopeLevel :=
  let around := match chain with
    | [] => []
    | level :: outer => withoutObject level index :: outer
  around ++ [if atTop then withoutObject top index else top]

/-- The object with its base resolved, when a level declares it. -/
def resolved (levels : List ScopeLevel) (tag : Xml.Tag) : Xml.Tag :=
  match tag.get? "base" with
  | none => tag
  | some base =>
    match levels.findSome? (lineIn? base) with
    | some line => tag.set "ref" line
    | none => tag

/-- Resolves the objects of a forest.  `chain` holds the scope levels around it,
innermost first; `index` counts the objects before it under the same parent. -/
def resolveIn (top : ScopeLevel) (chain : List ScopeLevel) (atTop : Bool) (index : Nat) :
    Xml.Content → Xml.Content
  | .nil => .nil
  | .leaf node rest => .leaf node (resolveIn top chain atTop index rest)
  | .element tag children rest =>
    if tag.isNamed objectLabel then
      .element (resolved (levelsFor chain top atTop index) tag)
        (resolveIn top (levelOf children :: chain) false 0 children)
        (resolveIn top chain atTop (index + 1) rest)
    else
      .element tag (resolveIn top [] false 0 children) (resolveIn top chain atTop index rest)

/-- Resolves the objects under the root, where the first `objects` element, as
long as it is `awaited`, holds the top-level objects. -/
def resolveUnderRoot (top : ScopeLevel) (chain : List ScopeLevel) (awaited : Bool)
    (index : Nat) : Xml.Content → Xml.Content
  | .nil => .nil
  | .leaf node rest => .leaf node (resolveUnderRoot top chain awaited index rest)
  | .element tag children rest =>
    if tag.isNamed objectLabel then
      .element (resolved (levelsFor chain top false index) tag)
        (resolveIn top (levelOf children :: chain) false 0 children)
        (resolveUnderRoot top chain awaited (index + 1) rest)
    else
      let holdsTop := awaited && tag.isNamed objectsLabel
      .element tag (resolveIn top [] holdsTop 0 children)
        (resolveUnderRoot top chain (awaited && !holdsTop) index rest)

/-- Resolves every reference to a declaration in scope. -/
def addRefs (document : Document) : Document :=
  let top := document.topObjects.map fun object => declaredBy? object.1
  let tag := document.root.tag
  let content := document.root.content
  if tag.isNamed objectLabel then
    let next := resolved [top] tag
    { document with
      root := { document.root with
        tag := next
        content := resolveUnderRoot top [levelOf content] true 0 content } }
  else
    document.withContent (resolveUnderRoot top [] true 0 content)

/-- The package of names that nothing else declares. -/
def defaultPackage : String := "org.eolang"

/-- An object with its base in the default package, when nothing resolves it. -/
def qualified (tag : Xml.Tag) : Xml.Tag :=
  match tag.get? "base" with
  | none => tag
  | some base =>
    if tag.has "ref" || base == "" || Text.holds '.' base || Document.isReflexive base then tag
    else tag.set "base" s!"{defaultPackage}.{base}"

/-- Moves unresolved names without a dot into the default package. -/
def fixMissedNames (document : Document) : Document :=
  document.mapObjects qualified

/-- The references of a document that are the line of no object. -/
def danglingRefs (document : Document) : List String :=
  let tags := document.allObjects.map Prod.fst
  let lines := tags.filterMap fun tag => tag.get? "line"
  (tags.filterMap fun tag => tag.get? "ref").filter fun reference => !lines.contains reference

/-- Refuses a document with a reference to a line that no object has. -/
def brokenRefs (document : Document) : Except Failure Document :=
  match danglingRefs document with
  | [] => .ok document
  | first :: others =>
    .error (.brokenReferences document.label
      (others.foldl (fun text reference => text ++ ", " ++ reference) first))

end EoAssembly.Pass
