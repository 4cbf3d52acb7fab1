import EoAssembly.Catalog.Codec
import EoAssembly.Disk
import EoAssembly.Ordered
import EoAssembly.Text.Fingerprint

/-!
Contract: a persistent store of records, one per object.

Records are kept in ascending order of their ids.  Every change is persisted at
once: the records are written to a sibling file that then replaces the catalog
file, so a stop at any point leaves either the old or the new state on the disk.
The records in memory change before the file does.

Owns:
- `Catalog`, opening, adding and updating;
- the views used by the stages;
- the digest of a catalog, which is equal for records that agree in everything,
  where paths agree by their steps.
-/

namespace EoAssembly

/-- The records of one catalog file. -/
structure Catalog where
  path : Path
  records : List Record
  deriving DecidableEq

namespace Catalog

/-- The records of a list in order; of two with one id the later one stays. -/
def recordsOf (records : List Record) : List Record := Ordered.ofList Record.id records

/-- Opens the catalog stored at a path; a missing file is a catalog without records. -/
def openAt (disk : Disk) (path : Path) : Except Failure Catalog :=
  if disk.exists? path then
    match disk.readText path with
    | .error refusal => .error (.host refusal.message)
    | .ok text =>
      match Record.allOfText? text with
      | some records => .ok ⟨path, recordsOf records⟩
      | none => .error (.malformed .json "not a list of records")
  else .ok ⟨path, []⟩

/-- The sibling file that is written first. -/
def sibling (catalog : Catalog) : Path := catalog.path.extended ".tmp"

/-- The cause of a sibling file that could not be written. -/
def siblingRefused (catalog : Catalog) (refusal : Refusal) : Failure :=
  .filesystem s!"Failed to write catalog '{catalog.sibling.text}': {refusal.message}"

/-- The cause of a catalog file that could not be replaced. -/
def replaceRefused (catalog : Catalog) (refusal : Refusal) : Failure :=
  .filesystem s!"Failed to replace catalog '{catalog.path.text}': {refusal.message}"

/-- The text of the catalog file. -/
def render (catalog : Catalog) : String := Record.renderAll catalog.records

/-- Writes the records to the sibling file and replaces the catalog file by it. -/
def persist (catalog : Catalog) (disk : Disk) : Except Failure Unit × Disk :=
  match disk.createParent catalog.path with
  | (.error refusal, next) => (.error (.host refusal.message), next)
  | (.ok (), prepared) =>
    match prepared.writeText catalog.sibling catalog.render with
    | (.error refusal, next) => (.error (catalog.siblingRefused refusal), next)
    | (.ok (), written) =>
      match written.replace catalog.sibling catalog.path with
      | (.error refusal, next) => (.error (catalog.replaceRefused refusal), next)
      | (.ok (), next) => (.ok (), next)

/-- The record with an id. -/
def find? (catalog : Catalog) (id : String) : Option Record :=
  Ordered.find? Record.id id catalog.records

/-- The record with an id, which must be there. -/
def get (catalog : Catalog) (id : String) : Except Failure Record :=
  match catalog.find? id with
  | some record => .ok record
  | none => .error (.notFound id)

/-- Whether there is a record with an id. -/
def contains (catalog : Catalog) (id : String) : Bool := (catalog.find? id).isSome

/-- The catalog with a record at the place of its id. -/
def put (catalog : Catalog) (record : Record) : Catalog :=
  { catalog with records := Ordered.put Record.id record catalog.records }

/-- The record with an id, which is created and persisted when it is missing. -/
def add (catalog : Catalog) (id : String) (disk : Disk) :
    Except Failure Record × Catalog × Disk :=
  match catalog.find? id with
  | some record => (.ok record, catalog, disk)
  | none =>
    let next := catalog.put (.ofId id)
    match next.persist disk with
    | (.ok (), written) => (.ok (.ofId id), next, written)
    | (.error failure, written) => (.error failure, next, written)

/-- Changes the record with an id, which keeps its id, and persists the catalog
when the record is not the same as before. -/
def update (catalog : Catalog) (id : String) (change : Record → Record) (disk : Disk) :
    Except Failure Record × Catalog × Disk :=
  match catalog.find? id with
  | none => (.error (.notFound id), catalog, disk)
  | some before =>
    let record := { change before with id := before.id }
    let next := catalog.put record
    if record.same before then (.ok record, next, disk)
    else
      match next.persist disk with
      | (.ok (), written) => (.ok record, next, written)
      | (.error failure, written) => (.error failure, next, written)

/-- The records without the discovered marker. -/
def notDiscovered (catalog : Catalog) : List Record :=
  catalog.records.filter fun record => record.discovered.isNone

/-- The number of records. -/
def size (catalog : Catalog) : Nat := catalog.records.length

/-- A path with one slash between components and none at its ends: a digest sees
the steps of a path, and not whether they start at the root. -/
def canonicalPath (path : Path) : Path :=
  .ofParts (path.lead.filter fun segment => segment != "")
    (path.body.filter fun segment => !Path.silent segment)

/-- A record whose paths are written in the canonical way. -/
def canonicalRecord (record : Record) : Record :=
  { record with
    source := record.source.map canonicalPath
    xmir := record.xmir.map canonicalPath
    optimized := record.optimized.map canonicalPath
    discoveredAt := record.discoveredAt.map canonicalPath }

/-- The state of every object: the records, where paths agree by their steps. -/
def state (catalog : Catalog) : List Record := catalog.records.map canonicalRecord

/-- A word of sixteen hexadecimal digits for the state of every object. -/
def digest (catalog : Catalog) : String :=
  Text.hexWord (Text.fingerprint (Record.renderAll catalog.state))

end Catalog

/-- The catalog of the objects of a build and that of the objects it exports. -/
structure Catalogs where
  foreign : Catalog
  external : Catalog
  deriving DecidableEq

namespace Catalogs

/-- The file name of the catalog of a build. -/
def foreignFile : String := "eo-foreign.json"

/-- The file name of the catalog of exported objects. -/
def externalFile : String := "eo-external.json"

/-- Opens both catalogs of a directory. -/
def openIn (disk : Disk) (directory : Path) : Except Failure Catalogs :=
  match Catalog.openAt disk (directory.child foreignFile) with
  | .error failure => .error failure
  | .ok foreign =>
    match Catalog.openAt disk (directory.child externalFile) with
    | .error failure => .error failure
    | .ok external => .ok ⟨foreign, external⟩

end Catalogs

end EoAssembly
