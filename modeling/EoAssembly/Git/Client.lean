import EoAssembly.CommitHash.Listing
import EoAssembly.Failure
import EoAssembly.Git.Repository

/-!
Contract: reaching repositories by their URLs.

Owns:
- `Client`, which knows the repositories that can be reached, or that the version
  control program itself is missing;
- `tagRows`, the commit hash table text of a repository;
- `clone`, which replaces a directory by the files of a commit.

A repository that can't be reached is taken for one that asks for rights, since
the program says the same about both.
-/

namespace EoAssembly.Git

/-- The repositories behind URLs; nothing when the program is missing. -/
structure Client where
  reach : Option (String → Disk → Option Repository)

namespace Client

/-- The client of a host without the program. -/
def absent : Client := ⟨none⟩

/-- The place that a URL of a file names. -/
def placeOf (url : String) : String := (Text.dropLead? "file://" url).getD url

/-- What the program writes about a repository that can't be reached. -/
def unreachable (url : String) : String :=
  s!"fatal: '{placeOf url}' does not appear to be a git repository\n"
    ++ "fatal: Could not read from remote repository.\n\n"
    ++ "Please make sure you have the correct access rights\nand the repository exists.\n"

/-- What the program writes first when it clones. -/
def cloning (directory : Path) : String := s!"Cloning into '{directory.text}'...\n"

/-- What the program writes about a reference that is not there. -/
def unknownReference (reference : String) : String :=
  s!"warning: Could not find remote branch {reference} to clone.\n"
    ++ s!"fatal: Remote branch {reference} not found\n"

/-- The words before what the program writes when a repository can't be reached. -/
def refusedAccess (errors : String) : String :=
  s!"Authentication failed. Make sure the objectionary is reachable.\nError: {errors}"

/-- The command that lists tags. -/
def listCommand : String := "ls-remote --tags"

/-- The rows of the tags of a repository. -/
def tagRows (client : Client) (url : String) (disk : Disk) : Except Failure String :=
  match client.reach with
  | none => .error (.gitCommand listCommand url Refusal.missing.message)
  | some reach =>
    match reach url disk with
    | none => .error (.gitCommand listCommand url (unreachable url))
    | some repository => .ok (TagListing.rows repository.tagListing)

/-- The directory by which a checkout is known as one. -/
def marker : String := ".git"

/-- A disk with the files of a commit below a directory. -/
def checkedOut (disk : Disk) (directory : Path) (commit : Commit) : Disk :=
  commit.files.foldl (fun found file => found.plant (directory.join ⟨file.1⟩) (.file file.2))
    (disk.plant (directory.child marker) .directory)

/-- Makes room for a directory: nothing is left of it, and what is above it exists. -/
def makeRoom (directory : Path) (disk : Disk) : Except Failure Unit × Disk :=
  if disk.exists? directory && !disk.isDirectory directory then
    (.error (.host Refusal.notDirectory.message), disk)
  else
    match (disk.remove directory).createParent directory with
    | (.ok (), next) => (.ok (), next)
    | (.error refusal, next) => (.error (.host refusal.message), next)

/-- Clones the commit behind a reference of a repository into a directory. -/
def clone (client : Client) (url reference : String) (directory : Path) (disk : Disk) :
    Except Failure Unit × Disk :=
  match makeRoom directory disk with
  | (.error failure, next) => (.error failure, next)
  | (.ok (), ready) =>
    let failed := fun message => (.error (.gitClone url reference message), ready)
    match client.reach with
    | none => failed Refusal.missing.message
    | some reach =>
      match reach url ready with
      | none => failed (refusedAccess (cloning directory ++ unreachable url))
      | some repository =>
        match repository.find? reference with
        | none => failed (cloning directory ++ unknownReference reference)
        | some commit => (.ok (), checkedOut ready directory commit)

end Client

end EoAssembly.Git
