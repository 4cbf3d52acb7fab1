import EoAssembly.Build.Discovered
import EoAssembly.Build.Parsed

/-!
Contract: fetching the sources of the objects that documents refer to.

The names of all optimized documents that can be read are taken in ascending
order.  An object with a source in the project is left alone.  A versioned name
is pinned to the short hash of its version before anything is written.  Unless
sources are overwritten, one that is there is kept, and a provenance log without
a source stops the name; otherwise the source is fetched and written, then its
log.  What is fetched, or was not recorded, is recorded and parsed.

Owns `referredNames`, `pullName` and `pullAll`.
-/

namespace EoAssembly.Build

/-- The directory of pulled sources below the target. -/
def pulledDirectory : String := "04-pull"

/-- The place of the pulled source of an object. -/
def pulledPlace (target : Path) (name : String) : Path :=
  ObjectName.place name (target.child pulledDirectory) "eo"

/-- The place of the provenance log of an object. -/
def logPlace (protocols : Path) (name : String) : Path :=
  ObjectName.place name protocols "log"

/-- The text of the provenance log of a source. -/
def logText (source : Path) (instant : String) : String :=
  s!"file: {source.text}\ntime: {instant}\n"

/-- The names that the optimized document of a record refers to, if it can be read. -/
def namesOfRecord (disk : Disk) (record : Record) : List String :=
  match record.optimized with
  | none => []
  | some optimized =>
    match namesIn disk optimized with
    | .ok names => names
    | .error _ => []

/-- The names that optimized documents refer to, in ascending order. -/
def referredNames (disk : Disk) (catalog : Catalog) : List String :=
  Ordered.names (catalog.records.flatMap (namesOfRecord disk))

/-- Whether an object has a source that was not pulled. -/
def isLocal (catalog : Catalog) (name : String) : Bool :=
  (catalog.find? name).any fun record => record.source.isSome && !record.pulled

/-- What to do about the source of an object. -/
inductive PullChoice where
  /-- Keep the source that is there. -/
  | keep
  /-- Leave the object alone: its log says that the source was pulled. -/
  | leave
  /-- Fetch the source. -/
  | fetch
  deriving DecidableEq

/-- What to do about the source at one path with its log at another. -/
def pullChoice (disk : Disk) (overwrite : Bool) (source log : Path) : PullChoice :=
  if overwrite then .fetch
  else if disk.exists? source then .keep
  else if disk.exists? log then .leave
  else .fetch

/-- Fetches the source of an object and writes it, then its log. -/
def fetchSource (remote : Remote) (name : String) (source log : Path) : Step Unit := do
  let text ← Step.fetch remote name
  Step.write source text
  let instant ← Step.look Workspace.instant
  Step.write log (logText source instant)

/-- Whether an object is recorded as pulled from a file. -/
def isRecorded (catalog : Catalog) (name : String) (source : Path) : Bool :=
  (catalog.find? name).any fun record => record.pulled && record.source.any fun path =>
    path.same source

/-- A record of an object whose source was pulled. -/
def asPulled (source : Path) (version hash : Option String) (record : Record) : Record :=
  { record with
    source := some source
    pulled := true
    version := version
    hash := hash
    status := some Status.pulled }

/-- Records a pulled source and makes its document if there is none. -/
def recordPulled (settings : Settings) (remote : Remote) (name : String) (source : Path)
    (hash : Option String) : Step Unit := do
  let _ ← Step.addForeign name
  let version := (ObjectName.split name).2
  let record ← Step.updateForeign name (asPulled source version hash)
  if record.xmir.isNone then
    let _ ← parseObject settings remote name

/-- The table, which is loaded when this pull has not needed it before. -/
def tableFor (remote : Remote) (known : Option HashTable) : Step HashTable :=
  match known with
  | some table => pure table
  | none => Step.table remote

/-- The short hash that a name is pinned to, and the table if it is known then. -/
def pinned (remote : Remote) (known : Option HashTable) (name : String) :
    Step (Option String × Option HashTable) :=
  match (ObjectName.split name).2 with
  | none => pure (none, known)
  | some version => do
    let table ← tableFor remote known
    let hash ← Step.ofOutcome (table.get version)
    pure (some hash, some table)

/-- Sees to the source of a pinned name; the answer is the number of sources fetched. -/
def pullPinned (settings : Settings) (remote : Remote) (name : String)
    (hash : Option String) : Step Nat := do
  let source := pulledPlace settings.target name
  let log := logPlace settings.protocols name
  let disk ← Step.look Workspace.disk
  match pullChoice disk settings.overwrite source log with
  | .leave => pure 0
  | .fetch =>
    fetchSource remote name source log
    recordPulled settings remote name source hash
    pure 1
  | .keep =>
    let recorded ← Step.look fun workspace => isRecorded workspace.foreign name source
    if !recorded then
      recordPulled settings remote name source hash
    pure 0

/-- Pulls one name; the answer is the number of sources fetched, and the table if
it is known then. -/
def pullName (settings : Settings) (remote : Remote) (known : Option HashTable)
    (name : String) : Step (Nat × Option HashTable) := do
  let left ← Step.look fun workspace => isLocal workspace.foreign name
  if left then
    pure (0, known)
  else
    Step.ofOutcome (ObjectName.checkPlace name)
    let (hash, table) ← pinned remote known name
    let fetched ← pullPinned settings remote name hash
    pure (fetched, table)

/-- Pulls names, one after the other. -/
def pullEach (settings : Settings) (remote : Remote) (known : Option HashTable) :
    List String → Step Nat
  | [] => pure 0
  | name :: rest => do
    let (first, table) ← pullName settings remote known name
    let others ← pullEach settings remote table rest
    pure (first + others)

/-- Pulls every name that an optimized document refers to; the answer is the number
of sources fetched. -/
def pullAll (settings : Settings) (remote : Remote) : Step Nat := do
  let names ← Step.look fun workspace => referredNames workspace.disk workspace.foreign
  pullEach settings remote none names

end EoAssembly.Build
