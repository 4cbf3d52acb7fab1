import EoAssembly.Disk
import EoAssembly.Git.Sha1

/-!
Contract: the objects of a repository and their names.

A file, a directory, a commit and an annotated tag are objects; an object is
named by the digest of its kind, its length and its content.

Owns:
- `ObjectId` and `ObjectId.text`;
- `Tree`, the files of a commit by their directories, and its name;
- `Signature` with the texts of commits and tags.
-/

namespace EoAssembly.Git

/-- The name of an object. -/
structure ObjectId where
  bytes : List UInt8
  deriving DecidableEq

namespace ObjectId

/-- A name as forty digits. -/
def text (id : ObjectId) : String := Text.hexBytes id.bytes

/-- The name of an object of a kind with a content. -/
def ofContent (kind : String) (content : List UInt8) : ObjectId :=
  ⟨Sha1.digest (s!"{kind} {content.length}".toUTF8.toList ++ 0 :: content)⟩

/-- The name of an object of a kind with a text. -/
def ofText (kind text : String) : ObjectId := ofContent kind text.toUTF8.toList

end ObjectId

/-- Files by their directories. -/
inductive Tree where
  | file (content : FileContent)
  | directory (entries : List (String × Tree))

namespace Tree

/-- The directory without entries. -/
def empty : Tree := .directory []

/-- The entries of a directory; a file has none. -/
def entries : Tree → List (String × Tree)
  | .file _ => []
  | .directory found => found

/-- A tree with a file at a location. -/
def put (content : FileContent) : Location → Tree → Tree
  | [], _ => .file content
  | name :: rest, tree =>
    let inner := (tree.entries.lookup name).getD empty
    let others := tree.entries.filter fun entry => entry.1 != name
    .directory ((name, put content rest inner) :: others)

/-- The tree of files. -/
def ofFiles (files : List (Location × FileContent)) : Tree :=
  files.foldl (fun tree file => tree.put file.2 file.1) empty

/-- A line of a directory object: how it sorts, the access rights, the name, and
the name of the object. -/
structure Line where
  order : String
  mode : String
  name : String
  id : ObjectId

/-- The bytes of a line. -/
def Line.bytes (line : Line) : List UInt8 :=
  s!"{line.mode} {line.name}".toUTF8.toList ++ 0 :: line.id.bytes

/-- The name of the directory object with lines; directories sort as if their names
ended in a slash. -/
def idOfLines (lines : List Line) : ObjectId :=
  .ofContent "tree"
    ((lines.mergeSort fun left right => decide (left.order ≤ right.order)).flatMap Line.bytes)

mutual

/-- The name of the object of a tree. -/
def id : Tree → ObjectId
  | .file content => .ofContent "blob" content.toBytes.toList
  | .directory entries => idOfLines (linesOf entries)

/-- The lines for entries. -/
def linesOf : List (String × Tree) → List Line
  | [] => []
  | (name, .file content) :: rest => ⟨name, "100644", name, id (.file content)⟩ :: linesOf rest
  | (name, .directory inner) :: rest =>
    ⟨name ++ "/", "40000", name, id (.directory inner)⟩ :: linesOf rest

end

end Tree

/-- Who made an object, and when. -/
structure Signature where
  name : String
  mail : String
  seconds : Nat
  deriving DecidableEq

/-- The text of a signature. -/
def Signature.text (signature : Signature) : String :=
  s!"{signature.name} <{signature.mail}> {signature.seconds} +0000"

/-- The name of a commit of a tree behind a parent, if it has one. -/
def commitId (signature : Signature) (tree : ObjectId) (parent : Option ObjectId)
    (message : String) : ObjectId :=
  let behind := match parent with
    | some id => s!"parent {id.text}\n"
    | none => ""
  .ofText "commit" (s!"tree {tree.text}\n{behind}author {signature.text}\n"
    ++ s!"committer {signature.text}\n\n{message}\n")

/-- The name of an annotated tag on a commit. -/
def tagId (signature : Signature) (commit : ObjectId) (tag message : String) : ObjectId :=
  .ofText "tag" (s!"object {commit.text}\ntype commit\ntag {tag}\ntagger {signature.text}\n\n"
    ++ s!"{message}\n")

end EoAssembly.Git
