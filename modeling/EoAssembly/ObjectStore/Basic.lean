import EoAssembly.Disk
import EoAssembly.ObjectName
import EoAssembly.Text.Fingerprint

/-!
Contract: the sources of published objects, read from checkouts of a repository.

A repository is cloned once per reference into a directory below the cache root;
the source of an object is the file at its place below `objects` in the checkout
of its version, or of the default reference when its name has none.

Owns `ObjectStore`, the path of a checkout, and fetching.
-/

namespace EoAssembly

/-- Clones a repository at a reference into a directory. -/
abbrev CloneOperation := String → String → Path → Disk → Except Failure Unit × Disk

/-- A repository of objects, its default reference and where checkouts go. -/
structure ObjectStore where
  url : String
  reference : String
  cacheRoot : Path
  deriving DecidableEq

namespace ObjectStore

/-- The directory inside of a repository that holds the sources. -/
def objectsDirectory : String := "objects"

/-- A reference as part of a file name. -/
def safeReference (reference : String) : String :=
  String.ofList (reference.toList.map fun c => if c = '/' then '-' else c)

/-- The directory of the checkout of a repository at a reference. -/
def checkoutPath (cacheRoot : Path) (url reference : String) : Path :=
  cacheRoot.child (Text.fingerprintText url ++ "-" ++ safeReference reference)

/-- The checkout at a reference, which is cloned on first use. -/
def checkout (store : ObjectStore) (clone : CloneOperation) (reference : String) (disk : Disk) :
    Except Failure Path × Disk :=
  let directory := checkoutPath store.cacheRoot store.url reference
  if disk.isDirectory directory then (.ok directory, disk)
  else
    match clone store.url reference directory disk with
    | (.ok (), next) => (.ok directory, next)
    | (.error failure, next) => (.error failure, next)

/-- The cause of a source that a checkout does not have. -/
def unreadable (name : String) (file : Path) (refusal : Refusal) : Failure :=
  .fetch name s!"{file.text} is not readable: {refusal.message}"

/-- The source of an object. -/
def fetch (store : ObjectStore) (clone : CloneOperation) (name : String) (disk : Disk) :
    Except Failure String × Disk :=
  let (base, version) := ObjectName.split name
  match store.checkout clone (version.getD store.reference) disk with
  | (.error failure, next) => (.error failure, next)
  | (.ok directory, next) =>
    let file := ObjectName.place base (directory.child objectsDirectory) "eo"
    match next.readText file with
    | .ok text => (.ok text, next)
    | .error refusal => (.error (unreadable name file refusal), next)

end ObjectStore

end EoAssembly
