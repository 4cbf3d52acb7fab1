import EoAssembly.CommitHash.Short
import EoAssembly.Disk
import EoAssembly.Text.Blank
import EoAssembly.Text.Lines

/-!
Contract: the commit hash table, which pins every release tag to a commit.

A table text has one row per line, a hash and then a tag, with blanks between;
further words of a row are ignored, lines of blanks are skipped, and of two rows
for one tag the later one holds.

Owns `HashTable`, its reader, the lookup of a tag's short hash, and reading the
text of a table from a file.
-/

namespace EoAssembly

/-- Hashes by tag; each tag occurs once. -/
structure HashTable where
  rows : List (String × CommitHash)
  deriving DecidableEq

namespace HashTable

/-- The table without rows. -/
def empty : HashTable := ⟨[]⟩

/-- The table in which `tag` has `hash`. -/
def insert (table : HashTable) (tag : String) (hash : CommitHash) : HashTable :=
  ⟨(tag, hash) :: table.rows.filter fun row => row.1 != tag⟩

/-- The cause of a row without a tag. -/
def malformedRow (line : String) : Failure :=
  .configuration s!"Malformed commit hash row: '{line}'" (some "Each row must be '<hash> <tag>'")

/-- Reads one row into a table. -/
def addRow (table : HashTable) (line : String) : Except Failure HashTable :=
  match Text.words line with
  | hash :: tag :: _ => .ok (table.insert tag (.remembered (.narrowed (.full hash))))
  | _ => .error (malformedRow line)

/-- Reads rows into a table, up to the first malformed one. -/
def addRows (table : HashTable) : List String → Except Failure HashTable
  | [] => .ok table
  | line :: rest =>
    match table.addRow line with
    | .ok next => next.addRows rest
    | .error failure => .error failure

/-- Reads a table text. -/
def ofText (text : String) : Except Failure HashTable :=
  empty.addRows ((Text.lines text).filter fun line => !Text.allBlank line)

/-- The number of tags. -/
def size (table : HashTable) : Nat := table.rows.length

/-- The short hash of a tag. -/
def get (table : HashTable) (tag : String) : Except Failure String :=
  match table.rows.lookup tag with
  | some hash => hash.value
  | none => .error (.unknownTag tag)

end HashTable

namespace CommitHash

/-- The cause of a table file that can't be read. -/
def tableUnreadable (path : Path) (refusal : Refusal) : Failure :=
  .configuration s!"Can't read commit hash table '{path.text}': {refusal.message}" none

/-- The table text in a file. -/
def readTable (disk : Disk) (path : Path) : Except Failure String :=
  match disk.readText path with
  | .ok text => .ok text
  | .error refusal => .error (tableUnreadable path refusal)

end CommitHash

end EoAssembly
