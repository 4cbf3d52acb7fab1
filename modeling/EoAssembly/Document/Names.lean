import EoAssembly.Document.Basic
import EoAssembly.ObjectName
import EoAssembly.Ordered
import EoAssembly.Text.Blank

/-!
Contract: what a document refers to.

An object refers to another one by the name in its `base`, unless the name is a
method call or one of the special names, or the reference is resolved already.

Owns:
- the three tests of such an object and `foreignNames`;
- the native inserts of a document with the crates that their code needs.
-/

namespace EoAssembly.Document

/-- The object that every application with a variable number of arguments needs. -/
def tupleName : String := "org.eolang.tuple"

/-- The base of native inserts. -/
def nativeBase : String := "org.eolang.rust"

/-- The names that refer to an object itself or to its surroundings. -/
def specialNames : List String := ["Q", "^", "$", "&", "@"]

/-- Whether a base is a method call or a special name. -/
def isReflexive (base : String) : Bool :=
  Text.startsWith "." base || specialNames.contains base

/-- Whether an object has a base. -/
def hasBase (tag : Xml.Tag) : Bool := tag.has "base"

/-- Whether the base of an object leads to another object. -/
def notReflexive (tag : Xml.Tag) : Bool :=
  match tag.get? "base" with
  | some base => !isReflexive base
  | none => false

/-- Whether an object has no resolved reference. -/
def notResolved (tag : Xml.Tag) : Bool := !tag.has "ref"

/-- The tests that an object passes when it refers to a foreign name. -/
def foreignTests : List (String × (Xml.Tag → Bool)) :=
  [("has-base", hasBase), ("not-reflexive", notReflexive), ("not-resolved", notResolved)]

/-- The name an object refers to, with its version when it asks for one. -/
def referredName? (tag : Xml.Tag) : Option String :=
  (tag.get? "base").map fun base =>
    match tag.get? "ver" with
    | some version =>
      if version = "" then base else base ++ String.ofList [ObjectName.versionMark] ++ version
    | none => base

/-- The foreign name an object refers to. -/
def foreignName? (tag : Xml.Tag) : Option String :=
  if foreignTests.all fun test => test.2 tag then
    (referredName? tag).filter fun name => name != ""
  else none

/-- Whether an application takes a variable number of arguments. -/
def hasVararg (document : Document) : Bool :=
  document.allObjects.any fun object => object.1.has "vararg"

/-- The names a document refers to but doesn't define, in ascending order. -/
def foreignNames (document : Document) : List String :=
  let referred := document.allObjects.filterMap fun object => foreignName? object.1
  Ordered.names (if document.hasVararg then tupleName :: referred else referred)

/-- A native insert: where it stands, its code, and the crates the code needs
with their versions. -/
structure Insert where
  locator : String
  code : String
  dependencies : List (String × String)
  deriving DecidableEq

/-- The line of an object as written. -/
def lineOf (tag : Xml.Tag) : String := (tag.get? "line").getD "0"

/-- The cause of an insert without code. -/
def insertWithoutCode (label : String) (tag : Xml.Tag) : Failure :=
  .document label s!"Native insert at line {lineOf tag} has no code"

/-- The cause of a dependency that is no pair. -/
def malformedDependency (label text : String) : Failure :=
  .document label s!"Native dependency '{text}' must be 'crate:version'"

/-- Reads the dependencies of an insert. -/
def dependenciesOf (label : String) : List (Xml.Tag × Xml.Content) →
    Except Failure (List (String × String))
  | [] => .ok []
  | (_, content) :: rest =>
    let text := Text.trim content.text
    match Text.splitFirst ':' text with
    | none => .error (malformedDependency label text)
    | some pair =>
      match dependenciesOf label rest with
      | .ok others => .ok (pair :: others)
      | .error failure => .error failure

/-- The dependencies listed by the second child of an insert, if there is one. -/
def listedDependencies (label : String) : List (Xml.Tag × Xml.Content) →
    Except Failure (List (String × String))
  | (_, content) :: _ => dependenciesOf label (childObjects content)
  | [] => .ok []

/-- Reads one insert of a document. -/
def insertOf (document : Document) (tag : Xml.Tag) (content : Xml.Content) :
    Except Failure Insert :=
  match childObjects content with
  | [] => .error (insertWithoutCode document.label tag)
  | (_, code) :: others =>
    match listedDependencies document.label others with
    | .error failure => .error failure
    | .ok dependencies =>
      let locator := (tag.get? "loc").getD s!"{document.name}:{lineOf tag}"
      .ok ⟨locator, code.text, dependencies⟩

/-- Reads the inserts among objects, up to the first broken one. -/
def insertsOf (document : Document) : List (Xml.Tag × Xml.Content) →
    Except Failure (List Insert)
  | [] => .ok []
  | (tag, content) :: rest =>
    if tag.get? "base" = some nativeBase then
      match document.insertOf tag content with
      | .error failure => .error failure
      | .ok insert =>
        match document.insertsOf rest with
        | .ok others => .ok (insert :: others)
        | .error failure => .error failure
    else document.insertsOf rest

/-- The native inserts of a document, in document order. -/
def inserts (document : Document) : Except Failure (List Insert) :=
  document.insertsOf document.allObjects

end EoAssembly.Document
