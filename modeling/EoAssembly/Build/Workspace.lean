import EoAssembly.Catalog.Basic
import EoAssembly.CommitHash.Slot
import EoAssembly.Document.Basic
import EoAssembly.Project.Settings

/-!
Contract: what a build works on, and steps that may end early.

A step either ends with a value or with a failure, and in both cases it leaves a
workspace: what was written before a failure stays written.

Owns:
- `Workspace`, the disk, both catalogs, the slot of the commit hash table, the
  journal of what was asked of the outside, and the instant of the clock;
- `Remote`, the outside: a store of sources, a parser and a list of tags;
- `Step`, with the operations on catalogs and files as steps.
-/

namespace EoAssembly

/-- Something a build asked of the outside. -/
inductive Request where
  /-- The source of a published object. -/
  | source (name : String)
  /-- The document of the source of an object. -/
  | document (id : String)
  /-- The text of the commit hash table. -/
  | table
  deriving DecidableEq

/-- What a build works on. -/
structure Workspace where
  disk : Disk
  foreign : Catalog
  external : Catalog
  slot : TableSlot
  /-- What was asked so far, the latest last. -/
  journal : List Request
  /-- The text of the present instant. -/
  instant : String

/-- The outside of a build. -/
structure Remote where
  /-- The source of a published object; a store may keep files of its own. -/
  fetch : String → Disk → Except Failure String × Disk
  /-- The document of the source of an object. -/
  parse : String → String → Except Failure String
  /-- The text of the commit hash table. -/
  table : Disk → Except Failure String

/-- A store that is a function of the name, as a way to fetch. -/
def Remote.fetchOf (store : String → Except Failure String) :
    String → Disk → Except Failure String × Disk :=
  fun name disk => (store name, disk)

/-- A part of a build. -/
abbrev Step := ExceptT Failure (StateM Workspace)

namespace Step

variable {α : Type}

/-- The step that does `action`. -/
def ofAction (action : Workspace → Except Failure α × Workspace) : Step α :=
  ExceptT.mk action

/-- The step that has an outcome and changes nothing. -/
def ofOutcome (outcome : Except Failure α) : Step α :=
  ofAction fun workspace => (outcome, workspace)

/-- The step that looks at a workspace. -/
def look (view : Workspace → α) : Step α :=
  ofAction fun workspace => (.ok (view workspace), workspace)

/-- The step that ends early. -/
def fail (failure : Failure) : Step α := ofOutcome (.error failure)

/-- Runs a step on a workspace. -/
def perform (step : Step α) (workspace : Workspace) : Except Failure α × Workspace :=
  step.run.run workspace

/-- The step that changes the disk only. -/
def onDisk (action : Disk → Except Failure α × Disk) : Step α :=
  ofAction fun workspace =>
    let (outcome, disk) := action workspace.disk
    (outcome, { workspace with disk := disk })

/-- The record of an object, which is created when it is missing. -/
def addForeign (id : String) : Step Record :=
  ofAction fun workspace =>
    let (outcome, catalog, disk) := workspace.foreign.add id workspace.disk
    (outcome, { workspace with foreign := catalog, disk := disk })

/-- Changes the record of an object. -/
def updateForeign (id : String) (change : Record → Record) : Step Record :=
  ofAction fun workspace =>
    let (outcome, catalog, disk) := workspace.foreign.update id change workspace.disk
    (outcome, { workspace with foreign := catalog, disk := disk })

/-- The record of an exported object, which is created when it is missing. -/
def addExternal (id : String) : Step Record :=
  ofAction fun workspace =>
    let (outcome, catalog, disk) := workspace.external.add id workspace.disk
    (outcome, { workspace with external := catalog, disk := disk })

/-- Changes the record of an exported object. -/
def updateExternal (id : String) (change : Record → Record) : Step Record :=
  ofAction fun workspace =>
    let (outcome, catalog, disk) := workspace.external.update id change workspace.disk
    (outcome, { workspace with external := catalog, disk := disk })

/-- Asks for the source of a published object. -/
def fetch (remote : Remote) (name : String) : Step String :=
  ofAction fun workspace =>
    let (outcome, disk) := remote.fetch name workspace.disk
    (outcome, { workspace with
      disk := disk
      journal := workspace.journal ++ [.source name] })

/-- Asks for the document of the source of an object. -/
def parse (remote : Remote) (id source : String) : Step String :=
  ofAction fun workspace =>
    (remote.parse id source, { workspace with journal := workspace.journal ++ [.document id] })

/-- The commit hash table, whose text is asked for until it was given once. -/
def table (remote : Remote) : Step HashTable :=
  ofAction fun workspace =>
    let (outcome, slot, asked) := workspace.slot.table (remote.table workspace.disk)
    (outcome, { workspace with
      slot := slot
      journal := if asked then workspace.journal ++ [.table] else workspace.journal })

/-- Writes a text file and the directories above it. -/
def write (path : Path) (text : String) : Step Unit :=
  onDisk fun disk => Document.writeBelow disk path text

/-- Writes a document. -/
def save (document : Document) (path : Path) : Step Unit :=
  onDisk fun disk => document.save disk path

/-- Reads a document. -/
def load (path : Path) : Step Document :=
  ofAction fun workspace => (Document.load workspace.disk path, workspace)

end Step

namespace Workspace

/-- Opens a workspace on the catalogs of a directory. -/
def openIn (disk : Disk) (directory : Path) (instant : String) : Except Failure Workspace :=
  match Catalogs.openIn disk directory with
  | .ok catalogs => .ok ⟨disk, catalogs.foreign, catalogs.external, .empty, [], instant⟩
  | .error failure => .error failure

/-- The step that opens both catalogs of a directory again. -/
def reopen (directory : Path) : Step Unit :=
  .ofAction fun workspace =>
    match Catalogs.openIn workspace.disk directory with
    | .ok catalogs =>
      (.ok (), { workspace with foreign := catalogs.foreign, external := catalogs.external })
    | .error failure => (.error failure, workspace)

end Workspace

namespace Status

/-- The status of an object whose source is in the project. -/
def registered : String := "registered"

/-- The status of an exported object. -/
def exported : String := "exported"

/-- The status of an object with a document. -/
def parsed : String := "parsed"

/-- The status of an object with an optimized document. -/
def optimized : String := "optimized"

/-- The status of an object whose references are in the catalog. -/
def discovered : String := "discovered"

/-- The status of an object whose source was pulled. -/
def pulled : String := "pulled"

end Status

end EoAssembly
