import EoAssembly.Text.Lines

/-!
Contract: from a listing of remote tags to a commit hash table text.

A listing has lines of a hash, a tab and a reference.  A tag reference starts
with `refs/tags/`; an annotated tag has a second line whose reference ends in
`^{}` and whose hash, that of the commit, wins over the first one.  Other lines
say nothing.

Owns `TagListing.rows`, which writes one row per tag in order of first mention.
-/

namespace EoAssembly.TagListing

/-- A tag mentioned by a line. -/
structure Mention where
  tag : String
  hash : String
  peeled : Bool
  deriving DecidableEq

/-- What the references of tags start with. -/
def tagLead : String := "refs/tags/"

/-- What the references of peeled tags end with. -/
def peeledTail : String := String.ofList ['^', '\x7b', '\x7d']

/-- Reads one line. -/
def mention? (line : String) : Option Mention :=
  match Text.splitFirst '\t' line with
  | none => none
  | some (hash, reference) =>
    match Text.dropLead? tagLead reference with
    | none => none
    | some tag =>
      match Text.dropTail? peeledTail tag with
      | some base => some ⟨base, hash, true⟩
      | none => some ⟨tag, hash, false⟩

/-- Adds a mention to the tags met so far, as pairs of tag and hash. -/
def record (mention : Mention) : List (String × String) → List (String × String)
  | [] => [(mention.tag, mention.hash)]
  | (tag, hash) :: rest =>
    if tag = mention.tag then (tag, if mention.peeled then mention.hash else hash) :: rest
    else (tag, hash) :: record mention rest

/-- The tags of a listing with the hash that holds for each. -/
def tags (listing : String) : List (String × String) :=
  ((Text.lines listing).filterMap mention?).foldl (fun found next => record next found) []

/-- The rows of a listing as a table text. -/
def rows (listing : String) : String :=
  Text.joinAll '\n' ((tags listing).map fun (tag, hash) => s!"{hash} {tag}")

end EoAssembly.TagListing
