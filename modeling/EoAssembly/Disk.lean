import EoAssembly.Path

/-!
Contract: the files a build works on, as a value.

Owns:
- `Location`, the names on the way from the root to a file or directory;
- `Disk`, a finite set of entries with a current directory and a schedule of
  forced failures;
- looking a path up, reading, writing, replacing, creating directories,
  removing, and listing the files below a directory.

A path leads through `..` only from an existing directory, and a path written
with a slash or a dot at its end leads to directories only.  A write and a
replacement first ask the schedule: when its head is true they fail and change
nothing, and an empty schedule forces no failure.
-/

namespace EoAssembly

/-- The names on the way from the root. -/
abbrev Location := List String

/-- What a regular file holds: text, or bytes that are no text. -/
inductive FileContent where
  | text (content : String)
  | binary (bytes : ByteArray)

instance : DecidableEq FileContent
  | .text left, .text right => decidable_of_iff (left = right) (by rw [FileContent.text.injEq])
  | .binary left, .binary right =>
    decidable_of_iff (left.data = right.data) (by rw [FileContent.binary.injEq, ByteArray.ext_iff])
  | .text _, .binary _ => .isFalse (by simp)
  | .binary _, .text _ => .isFalse (by simp)

/-- The content made of `bytes`. -/
def FileContent.ofBytes (bytes : ByteArray) : FileContent :=
  match String.fromUTF8? bytes with
  | some content => .text content
  | none => .binary bytes

/-- The bytes of a content. -/
def FileContent.toBytes : FileContent → ByteArray
  | .text content => content.toUTF8
  | .binary bytes => bytes

/-- What stands at a location. -/
inductive Entry where
  | file (content : FileContent)
  | directory
  deriving DecidableEq

/-- Why the disk refused an operation. -/
inductive Refusal where
  | missing
  | notDirectory
  | isDirectory
  | notText
  | badName
  | noSpace
  deriving DecidableEq

/-- The host's words for a refusal. -/
def Refusal.message : Refusal → String
  | .missing => "No such file or directory (os error 2)"
  | .notDirectory => "Not a directory (os error 20)"
  | .isDirectory => "Is a directory (os error 21)"
  | .notText => "stream did not contain valid UTF-8"
  | .badName => "File name too long (os error 36)"
  | .noSpace => "No space left on device (os error 28)"

/-- The entries below the root, the current directory, and the outcomes forced
on the writes and replacements to come. -/
structure Disk where
  entries : List (Location × Entry)
  current : Location
  outages : List Bool

namespace Disk

/-- A disk whose current directory is the only one. -/
def empty (current : Location) : Disk :=
  ⟨(List.range current.length).map fun depth => (current.take (depth + 1), .directory), current, []⟩

/-- What stands at a location; the root is always a directory. -/
def entryAt? (disk : Disk) (location : Location) : Option Entry :=
  if location = [] then some .directory else disk.entries.lookup location

/-- Whether a directory stands at a location. -/
def directoryAt (disk : Disk) (location : Location) : Bool :=
  disk.entryAt? location == some .directory

/-- The disk with `entry` at a location. -/
def put (disk : Disk) (location : Location) (entry : Entry) : Disk :=
  { disk with
    entries := (location, entry) :: disk.entries.filter fun other => other.1 != location }

/-- The disk without a location and all below it. -/
def erase (disk : Disk) (location : Location) : Disk :=
  { disk with entries := disk.entries.filter fun other => !location.isPrefixOf other.1 }

/-- Where components lead from a location; `..` needs a directory to leave. -/
def walk (disk : Disk) : Location → List Path.Component → Option Location
  | location, [] => some location
  | _, .root :: rest => disk.walk [] rest
  | location, .here :: rest => disk.walk location rest
  | location, .up :: rest =>
    if disk.directoryAt location then disk.walk location.dropLast rest else none
  | location, .named name :: rest => disk.walk (location ++ [name]) rest

/-- The location a path leads to, if its text can lead anywhere. -/
def resolve? (disk : Disk) (path : Path) : Option Location :=
  if path.isEmpty then none else disk.walk disk.current path.components

/-- What stands at the end of a path. -/
def entry? (disk : Disk) (path : Path) : Option Entry :=
  match disk.resolve? path with
  | none => none
  | some location =>
    match disk.entryAt? location with
    | some (.file content) => if path.endsAtDirectory then none else some (.file content)
    | other => other

/-- Whether anything stands at the end of a path. -/
def exists? (disk : Disk) (path : Path) : Bool :=
  (disk.entry? path).isSome

/-- Whether a directory stands at the end of a path. -/
def isDirectory (disk : Disk) (path : Path) : Bool :=
  disk.entry? path == some .directory

/-- The text of the file at the end of a path. -/
def readText (disk : Disk) (path : Path) : Except Refusal String :=
  match disk.entry? path with
  | some (.file (.text content)) => .ok content
  | some (.file (.binary _)) => .error .notText
  | some .directory => .error .isDirectory
  | none => .error .missing

/-- Whether an entry may carry this name. -/
def nameAllowed (name : String) : Bool :=
  name.utf8ByteSize ≤ 255 && !Text.holds '\x00' name

/-- The next forced outcome, and the disk with the schedule moved on. -/
def takeOutage (disk : Disk) : Bool × Disk :=
  match disk.outages with
  | [] => (false, disk)
  | forced :: rest => (forced, { disk with outages := rest })

/-- Where a file could be written through a path. -/
def writableAt (disk : Disk) (path : Path) : Except Refusal Location :=
  match disk.resolve? path with
  | none => .error .missing
  | some location =>
    if path.endsAtDirectory || disk.directoryAt location then .error .isDirectory
    else if !disk.directoryAt location.dropLast then .error .missing
    else if location.all nameAllowed then .ok location
    else .error .badName

/-- Writes a file, replacing what it held. -/
def writeFile (disk : Disk) (path : Path) (content : FileContent) : Except Refusal Unit × Disk :=
  let (forced, disk) := disk.takeOutage
  if forced then (.error .noSpace, disk)
  else match disk.writableAt path with
    | .error refusal => (.error refusal, disk)
    | .ok location => (.ok (), disk.put location (.file content))

/-- Writes a text file. -/
def writeText (disk : Disk) (path : Path) (content : String) : Except Refusal Unit × Disk :=
  disk.writeFile path (.text content)

/-- Moves the file at `source` to `target` in one step. -/
def replace (disk : Disk) (source target : Path) : Except Refusal Unit × Disk :=
  let (forced, disk) := disk.takeOutage
  if forced then (.error .noSpace, disk)
  else match disk.resolve? source, disk.entry? source, disk.writableAt target with
    | some origin, some (.file content), .ok location =>
      (.ok (), (disk.erase origin).put location (.file content))
    | _, _, .error refusal => (.error refusal, disk)
    | _, _, .ok _ => (.error .missing, disk)

/-- Creates the directories that components name, from a location on. -/
def createAlong (disk : Disk) : Location → List Path.Component → Except Refusal Unit × Disk
  | _, [] => (.ok (), disk)
  | _, .root :: rest => disk.createAlong [] rest
  | location, .here :: rest => disk.createAlong location rest
  | location, .up :: rest => disk.createAlong location.dropLast rest
  | location, .named name :: rest =>
    let next := location ++ [name]
    match disk.entryAt? next with
    | some .directory => disk.createAlong next rest
    | some (.file _) => (.error .notDirectory, disk)
    | none =>
      if nameAllowed name then (disk.put next .directory).createAlong next rest
      else (.error .badName, disk)

/-- Creates a directory and those above it, where they are missing. -/
def createDirectories (disk : Disk) (path : Path) : Except Refusal Unit × Disk :=
  disk.createAlong disk.current path.components

/-- Creates the directory that a file at `path` would stand in. -/
def createParent (disk : Disk) (path : Path) : Except Refusal Unit × Disk :=
  match path.parent? with
  | some directory => disk.createDirectories directory
  | none => (.ok (), disk)

/-- Removes a file, or a directory with all below it; a missing path is fine. -/
def remove (disk : Disk) (path : Path) : Disk :=
  match disk.resolve? path with
  | some location => disk.erase location
  | none => disk

/-- The files below a location: the names on the way to each, in the order of a
walk that visits the names of every directory in ascending order. -/
def filesBelow (disk : Disk) (location : Location) : List (Location × FileContent) :=
  let files := disk.entries.filterMap fun other =>
    match other.2 with
    | .file content =>
      if location.isPrefixOf other.1 then some (other.1.drop location.length, content) else none
    | .directory => none
  files.mergeSort fun left right => !right.1.lex left.1 (· < ·)

/-- Every file below the current directory. -/
def files (disk : Disk) : List (Location × FileContent) :=
  disk.filesBelow disk.current

/-- A disk with one more file and the directories above it, whatever stood there. -/
def plant (disk : Disk) (path : Path) (entry : Entry) : Disk :=
  match entry with
  | .directory => (disk.createDirectories path).2
  | .file content =>
    let prepared := (disk.createParent path).2
    match prepared.resolve? path with
    | some location => prepared.put location (.file content)
    | none => prepared

end Disk

end EoAssembly
