import EoAssembly.Git.Object

/-!
Contract: a repository as its branches and tags.

Owns:
- `Repository`, with the snapshot of files behind every reference;
- switching branches, committing and tagging;
- `find?`, which looks a reference up among the branches and then the tags;
- `tagListing`, one line per tag in the order of names, and after an annotated
  tag a line for the commit it stands for.
-/

namespace EoAssembly.Git

/-- A commit with its files. -/
structure Commit where
  id : ObjectId
  files : List (Location × FileContent)

/-- A tag: the commit, and the object of its own that an annotated tag has. -/
structure Tag where
  name : String
  commit : Commit
  annotation : Option ObjectId

/-- A repository. -/
structure Repository where
  branch : String
  head : Option Commit
  branches : List (String × Commit)
  tags : List Tag

namespace Repository

/-- A repository without commits. -/
def ofBranch (branch : String) : Repository := ⟨branch, none, [], []⟩

/-- Moves a branch to the present commit and goes on there. -/
def switch (repository : Repository) (branch : String) : Repository :=
  { repository with
    branch := branch
    branches := match repository.head with
      | some commit =>
        (branch, commit) :: repository.branches.filter fun other => other.1 != branch
      | none => repository.branches }

/-- Commits files. -/
def commit (repository : Repository) (signature : Signature) (message : String)
    (files : List (Location × FileContent)) : Repository :=
  let id := commitId signature (Tree.ofFiles files).id (repository.head.map Commit.id) message
  ({ repository with head := some ⟨id, files⟩ }).switch repository.branch

/-- Puts a tag on the present commit. -/
def tag (repository : Repository) (name : String) : Repository :=
  match repository.head with
  | some commit => { repository with tags := repository.tags ++ [⟨name, commit, none⟩] }
  | none => repository

/-- Puts an annotated tag on the present commit. -/
def annotate (repository : Repository) (signature : Signature) (name message : String) :
    Repository :=
  match repository.head with
  | some commit =>
    let annotation := tagId signature commit.id name message
    { repository with tags := repository.tags ++ [⟨name, commit, some annotation⟩] }
  | none => repository

/-- The commit behind a branch, or else behind a tag. -/
def find? (repository : Repository) (reference : String) : Option Commit :=
  match repository.branches.lookup reference with
  | some commit => some commit
  | none => (repository.tags.find? fun tag => tag.name == reference).map Tag.commit

/-- The lines of a tag. -/
def tagLines (tag : Tag) : String :=
  match tag.annotation with
  | none => s!"{tag.commit.id.text}\trefs/tags/{tag.name}\n"
  | some annotation =>
    s!"{annotation.text}\trefs/tags/{tag.name}\n{tag.commit.id.text}\trefs/tags/{tag.name}^"
      ++ "\x7b\x7d\n"

/-- The listing of all tags. -/
def tagListing (repository : Repository) : String :=
  String.join ((repository.tags.mergeSort fun left right =>
    decide (left.name ≤ right.name)).map tagLines)

end Repository

end EoAssembly.Git
