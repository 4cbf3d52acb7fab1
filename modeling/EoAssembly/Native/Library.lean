import EoAssembly.Build.Workspace
import EoAssembly.Document.Names
import EoAssembly.Json.Printer
import EoAssembly.Native.Build
import EoAssembly.Native.Manifest

/-!
Contract: collecting the native inserts of optimized documents into one library.

The inserts are numbered by the names of their objects and then in document
order; the function of an insert is named after the target directory and its
number.  Files are written only when their content changes, and nothing at all is
written for a build without inserts.

Owns:
- the places of the library, its sources, its manifest and the table of names;
- `Library.collect` and `Library.binarize`, which also builds the library when it
  is asked to.
-/

namespace EoAssembly.Native

/-- What collecting inserts did. -/
structure LibraryReport where
  /-- The function of every insert, in order. -/
  functions : List String
  /-- The number of files whose content changed. -/
  written : Nat
  /-- Whether the library was built. -/
  built : Bool
  deriving DecidableEq

namespace Library

/-- The name of the library crate. -/
def crateName : String := "common"

/-- The directory of the library below the target. -/
def directory (target : Path) : Path := target.child "Lib"

/-- The directory of the inserts as found. -/
def codes (target : Path) : Path := (target.child "binarize").child "codes"

/-- The file that tells the function of every locator. -/
def namesFile (target : Path) : Path := target.child "names.json"

/-- The function of the insert with a number. -/
def functionName (target : Path) (number : Nat) : String :=
  ObjectName.nativeStem target ++ toString number

/-- What is collected so far. -/
structure Draft where
  functions : List String
  names : List (String × String)
  manifest : Manifest
  written : Nat
  deriving DecidableEq

/-- A draft without inserts. -/
def Draft.empty : Draft := ⟨[], [], .ofName crateName, 0⟩

/-- Writes a text unless it is there; the answer is the number of files written. -/
def writeChanged (path : Path) (text : String) : Step Nat :=
  Step.onDisk fun disk =>
    match writeIfChanged disk path text with
    | (.ok changed, next) => (.ok (if changed then 1 else 0), next)
    | (.error failure, next) => (.error failure, next)

/-- Adds one insert. -/
def addInsert (target : Path) (draft : Draft) (insert : Document.Insert) : Step Draft := do
  let name := functionName target draft.functions.length
  let file := name ++ ".rs"
  let first ← writeChanged ((codes target).child file) insert.code
  let second ← writeChanged (((directory target).child "src").child file) insert.code
  pure
    { functions := draft.functions ++ [name]
      names := Ordered.put Prod.fst (insert.locator, name) draft.names
      manifest := draft.manifest.addAll insert.dependencies
      written := draft.written + first + second }

/-- Adds inserts, one after the other. -/
def addInserts (target : Path) : Draft → List Document.Insert → Step Draft
  | draft, [] => pure draft
  | draft, insert :: rest => do
    let next ← addInsert target draft insert
    addInserts target next rest

/-- Adds the inserts of the optimized documents of records. -/
def collect (target : Path) : Draft → List Record → Step Draft
  | draft, [] => pure draft
  | draft, record :: rest =>
    match record.optimized with
    | none => collect target draft rest
    | some optimized => do
      let document ← Step.load optimized
      let inserts ← Step.ofOutcome document.inserts
      let next ← addInserts target draft inserts
      collect target next rest

/-- The text of the file that declares every module. -/
def modulesText (functions : List String) : String :=
  String.join (functions.map fun name => s!"pub mod {name};\n")

/-- The text of the table of names. -/
def namesText (names : List (String × String)) : String :=
  (Json.Value.object (names.map fun pair => (pair.1, .string pair.2))).render

/-- Writes what is common to all inserts; the answer is the number of files written. -/
def writeCommon (target : Path) (draft : Draft) : Step Nat := do
  let modules ← writeChanged ((directory target).child "src/lib.rs") (modulesText draft.functions)
  let manifest ← writeChanged ((directory target).child "Cargo.toml") draft.manifest.render
  let names ← writeChanged (namesFile target) (namesText draft.names)
  pure (modules + manifest + names)

/-- Builds the library. -/
def build (settings : Settings) (toolbox : Command.Toolbox) (cancelled : Bool) : Step String :=
  Step.onDisk fun disk =>
    ((NativeBuild.ofProgram settings.cargo (directory settings.target)).run toolbox disk cancelled,
      disk)

/-- Collects the inserts of all optimized documents in the catalog, and builds the
library when `wanted`. -/
def binarize (settings : Settings) (toolbox : Command.Toolbox) (wanted cancelled : Bool) :
    Step LibraryReport := do
  let records ← Step.look fun workspace => workspace.foreign.records
  let draft ← collect settings.target .empty records
  if draft.functions.isEmpty then
    pure ⟨[], draft.written, false⟩
  else
    let common ← writeCommon settings.target draft
    if wanted then
      let _ ← build settings toolbox cancelled
    pure ⟨draft.functions, draft.written + common, wanted⟩

end Library

end EoAssembly.Native
