import EoAssembly.Document.Basic

/-!
Contract: the passes that only add or drop markers of objects.

Owns:
- `globalsToAbstracts`: a top-level object that neither refers to another one nor
  is abstract becomes abstract, and `global` markers go away;
- `removeRefs` and `removeLevels`: resolved references and level markers go away.
-/

namespace EoAssembly.Pass

/-- A declaration without a base is abstract. -/
def declareAbstract (tag : Xml.Tag) : Xml.Tag :=
  if tag.has "base" || tag.has "abstract" then tag else tag.set "abstract" ""

/-- A document with an attribute removed from every object. -/
def strip (key : String) (document : Document) : Document :=
  document.mapObjects fun tag => tag.remove key

/-- Top-level objects become declarations or stay references. -/
def globalsToAbstracts (document : Document) : Document :=
  strip "global" (document.withContent
    (document.root.content.modifyFirst objectsLabel (Document.mapTop declareAbstract)))

/-- Drops the references resolved before. -/
def removeRefs (document : Document) : Document := strip "ref" document

/-- Drops the level markers. -/
def removeLevels (document : Document) : Document := strip "level" document

end EoAssembly.Pass
