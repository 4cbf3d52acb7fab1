import EoAssembly.Text.Pieces

/-!
Contract: file paths as they are written, and the components they name.

Owns:
- `Path`, the parts of a path text between its slashes, so that a path prints
  exactly as it was given;
- joining, which is textual and lets an absolute path replace what it is joined
  to;
- `components`, by which two paths are compared, and the parent, the file name
  and the remainder behind a base, all in terms of components.

Does not own: what a path leads to on a disk.
-/

namespace EoAssembly

/-- A path text, held as its parts between slashes. -/
structure Path where
  segments : List String
  deriving DecidableEq

namespace Path

/-- One step of a path. -/
inductive Component where
  | root
  | here
  | up
  | named (name : String)
  deriving DecidableEq

/-- The path written as `text`. -/
def ofText (text : String) : Path :=
  ⟨Text.splitAll '/' text⟩

/-- The text of a path. -/
def text (path : Path) : String :=
  Text.joinAll '/' path.segments

/-- Whether nothing is written. -/
def isEmpty (path : Path) : Bool :=
  path.segments == [""]

/-- Whether a path starts at the root. -/
def isAbsolute (path : Path) : Bool :=
  match path.segments with
  | first :: _ :: _ => first == ""
  | _ => false

/-- `path` followed by `next`; an absolute `next` stands alone, and a slash is
written only where the text of `path` does not end in one or is empty. -/
def join (path next : Path) : Path :=
  if next.isAbsolute then next
  else if path.segments.getLast? = some "" then ⟨path.segments.dropLast ++ next.segments⟩
  else ⟨path.segments ++ next.segments⟩

/-- `path` followed by the path written as `name`. -/
def child (path : Path) (name : String) : Path :=
  path.join (ofText name)

/-- A path whose text has `tail` behind it. -/
def extended (path : Path) (tail : String) : Path :=
  ofText (path.text ++ tail)

/-- A segment that names no component. -/
def silent (segment : String) : Bool :=
  segment == "" || segment == "."

/-- The component that a segment behind the first names, if any. -/
def componentOf (segment : String) : Option Component :=
  if silent segment then none
  else if segment = ".." then some .up
  else some (.named segment)

/-- The segments that stand for the root or for a leading dot. -/
def lead (path : Path) : List String :=
  match path.segments with
  | first :: rest =>
    if first = "" ∧ rest ≠ [] then [""] else if first = "." then ["."] else []
  | [] => []

/-- The segments behind the lead. -/
def body (path : Path) : List String :=
  path.segments.drop path.lead.length

/-- The component a lead stands for. -/
def leadComponents (lead : List String) : List Component :=
  match lead with
  | [] => []
  | first :: _ => if first = "" then [.root] else [.here]

/-- What a path names, step by step; doubled slashes and inner dots name nothing. -/
def components (path : Path) : List Component :=
  leadComponents path.lead ++ path.body.filterMap componentOf

/-- Two paths are the same when their components are. -/
def same (left right : Path) : Bool :=
  left.components == right.components

/-- A path from its lead and the segments behind it. -/
def ofParts (lead body : List String) : Path :=
  match body with
  | [] => match lead with
    | [] => ⟨[""]⟩
    | first :: _ => if first = "" then ⟨["", ""]⟩ else ⟨lead⟩
  | _ => ⟨lead ++ body⟩

/-- Segments without the silent ones at the end. -/
def trimSegments (segments : List String) : List String :=
  (segments.reverse.dropWhile silent).reverse

/-- The path without its last component. -/
def parent? (path : Path) : Option Path :=
  match (trimSegments path.body).reverse with
  | [] => if path.lead = ["."] then some ⟨[""]⟩ else none
  | _ :: before => some (ofParts path.lead (before.dropWhile silent).reverse)

/-- The last component, when it is a name. -/
def fileName? (path : Path) : Option String :=
  match (trimSegments path.body).getLast? with
  | some name => if name = ".." then none else some name
  | none => none

/-- Segments behind the first `count` components. -/
def dropComponents : Nat → List String → List String
  | 0, segments => segments
  | _ + 1, [] => []
  | count + 1, segment :: rest =>
    if silent segment then dropComponents (count + 1) rest else dropComponents count rest

/-- The rest of `path` behind `base`, when the components of `base` come first. -/
def behind? (base path : Path) : Option Path :=
  if base.components.isPrefixOf path.components then
    if base.components.isEmpty then
      some (ofParts path.lead (trimSegments path.body))
    else
      let rest := dropComponents (base.components.length - path.lead.length) path.body
      some (ofParts [] (trimSegments (rest.dropWhile silent)))
  else
    none

/-- A file name without its extension: what follows the last dot, unless that
dot comes first. -/
def stem (name : String) : String :=
  match Text.cut (· == '.') name.toList.reverse with
  | some (_, before) => if before.isEmpty then name else String.ofList before.reverse
  | none => name

/-- The path with the extension of its file name removed. -/
def withoutExtension (path : Path) : Path :=
  match path.fileName? with
  | none => path
  | some name => ofParts path.lead ((trimSegments path.body).dropLast ++ [stem name])

/-- Whether a path is written so that it can only lead to a directory. -/
def endsAtDirectory (path : Path) : Bool :=
  match path.segments.getLast? with
  | some last => silent last || last == ".."
  | none => true

/-- `path` as it is shown to someone standing in `base`: the rest behind `base`,
or all of it. -/
def relativeTo (base path : Path) : String :=
  match behind? base path with
  | some rest => rest.text
  | none => path.text

end Path

end EoAssembly
