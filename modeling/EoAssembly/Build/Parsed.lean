import EoAssembly.Build.Workspace
import EoAssembly.ObjectName

/-!
Contract: from the source of an object to its document.

Owns `parseObject` and `parseAll`, which takes the objects that have a source
and no document when it starts, and stops at the first failure.
-/

namespace EoAssembly.Build

/-- The directory of documents below the target. -/
def parsedDirectory : String := "01-parse"

/-- The extension of documents. -/
def documentExtension : String := "xmir"

/-- The place of the document of an object. -/
def parsedPlace (target : Path) (id : String) : Path :=
  ObjectName.place id (target.child parsedDirectory) documentExtension

/-- The cause of a source that can't be read. -/
def sourceUnreadable (source : Path) (refusal : Refusal) : Failure :=
  .filesystem s!"Can't read '{source.text}': {refusal.message}"

/-- The text of a source. -/
def readSource (disk : Disk) (source : Path) : Except Failure String :=
  match disk.readText source with
  | .ok text => .ok text
  | .error refusal => .error (sourceUnreadable source refusal)

/-- The source of an object in the catalog. -/
def sourceOf (catalog : Catalog) (id : String) : Except Failure Path :=
  match catalog.get id with
  | .ok record => record.requireSource
  | .error failure => .error failure

/-- A record with a document. -/
def asParsed (document : Path) (record : Record) : Record :=
  { record with xmir := some document, status := some Status.parsed }

/-- Makes the document of an object from its source. -/
def parseObject (settings : Settings) (remote : Remote) (id : String) : Step Path := do
  let workspace ← Step.look fun present => present
  let source ← Step.ofOutcome (sourceOf workspace.foreign id)
  let text ← Step.ofOutcome (readSource workspace.disk source)
  let made ← Step.parse remote id text
  let place := parsedPlace settings.target id
  let document ← Step.ofOutcome (Document.ofText made place.text)
  Step.save document place
  let _ ← Step.updateForeign id (asParsed place)
  pure place

/-- Makes the documents of objects, one after the other. -/
def parseEach (settings : Settings) (remote : Remote) : List String → Step Unit
  | [] => pure ()
  | id :: rest => do
    let _ ← parseObject settings remote id
    parseEach settings remote rest

/-- Whether an object waits for its document. -/
def awaitsParse (record : Record) : Bool := record.source.isSome && record.xmir.isNone

/-- The objects that wait for their documents. -/
def unparsed (catalog : Catalog) : List String :=
  (catalog.records.filter awaitsParse).map Record.id

/-- Makes every missing document; the answer is their number. -/
def parseAll (settings : Settings) (remote : Remote) : Step Nat := do
  let pending ← Step.look fun workspace => unparsed workspace.foreign
  parseEach settings remote pending
  pure pending.length

end EoAssembly.Build
