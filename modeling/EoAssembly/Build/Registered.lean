import EoAssembly.Build.Workspace
import EoAssembly.ObjectName

/-!
Contract: putting the sources of a project into the catalog.

The files below the sources are taken in the order of their names, when one of
the patterns to include stands for their path and none of those to exclude.  The
name of an object is its path with dots between the parts and without the
extension.

Owns:
- `selectedFiles` and `hasStrictName`;
- `register`, which keeps the status of an object that is in the catalog already.
-/

namespace EoAssembly.Build

/-- The extension of source files. -/
def sourceExtension : String := "eo"

/-- The cause of sources that are no directory. -/
def noSources (sources : Path) : Failure :=
  .configuration s!"Sources directory '{sources.text}' doesn't exist"
    (some "Set 'sources:' in eo.yaml")

/-- The cause of a file name that strict names forbid. -/
def incorrectName (name : String) : Failure :=
  .configuration s!"Incorrect name found: '{name}'"
    (some ("EO file names may only contain lowercase letters, digits and '-'; "
      ++ "set 'strict-names: false' to allow anything"))

/-- Whether a character may stand in a strict name. -/
def isStrict (c : Char) : Bool :=
  ('a' ≤ c && c ≤ 'z') || ('0' ≤ c && c ≤ '9') || c == '-'

/-- Whether a file name without its extension is strict. -/
def hasStrictName (name : String) : Bool :=
  let base := (Text.dropTail? ("." ++ sourceExtension) name).getD name
  base != "" && base.toList.all isStrict

/-- Whether the patterns of a project select a path text. -/
def isSelected (included excluded : List Glob) (text : String) : Bool :=
  included.any (fun glob => glob.accepts text) && !excluded.any fun glob => glob.accepts text

/-- The paths of the files below a directory, from that directory on. -/
def filesIn (disk : Disk) (directory : Path) : List Path :=
  match disk.resolve? directory with
  | some location => (disk.filesBelow location).map fun file => ⟨file.1⟩
  | none => []

/-- The files that patterns select below a directory. -/
def selectedFiles (disk : Disk) (directory : Path) (included excluded : List Glob) :
    List Path :=
  (filesIn disk directory).filter fun file => isSelected included excluded file.text

/-- A record with its source in the project. -/
def asRegistered (file : Path) (record : Record) : Record :=
  { record with
    source := some file
    status := some (record.status.getD Status.registered) }

/-- A record of an object that a version of a project exports. -/
def asExported (file : Path) (version : String) (record : Record) : Record :=
  { record with
    source := some file
    status := some Status.exported
    version := if version = "" then record.version else some version }

/-- Refuses a file whose name is not strict. -/
def checkName (file : Path) : Except Failure Unit :=
  let name := file.fileName?.getD ""
  if hasStrictName name then .ok () else .error (incorrectName name)

/-- Puts one file into the catalog, and into the catalog of exported objects when
the project asks for it. -/
def registerFile (settings : Settings) (file : Path) : Step Unit := do
  if settings.strictNames then
    Step.ofOutcome (checkName file)
  let id := ObjectName.ofRelativePath file sourceExtension
  let source := settings.sources.join file
  let _ ← Step.addForeign id
  let _ ← Step.updateForeign id (asRegistered source)
  if settings.withVersions then
    let _ ← Step.addExternal id
    let _ ← Step.updateExternal id (asExported source settings.project.version)

/-- Puts files into the catalog, one after the other. -/
def registerFiles (settings : Settings) : List Path → Step Unit
  | [] => pure ()
  | file :: rest => do
    registerFile settings file
    registerFiles settings rest

/-- Puts the sources of a project into the catalog; the answer is their number. -/
def register (settings : Settings) : Step Nat := do
  let disk ← Step.look Workspace.disk
  if !disk.isDirectory settings.sources then
    Step.fail (noSources settings.sources)
  let included ← Step.ofOutcome (Settings.patterns settings.included)
  let excluded ← Step.ofOutcome (Settings.patterns settings.excluded)
  let files := selectedFiles disk settings.sources included excluded
  registerFiles settings files
  pure files.length

end EoAssembly.Build
