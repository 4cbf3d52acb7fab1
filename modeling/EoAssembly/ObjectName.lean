import EoAssembly.Failure
import EoAssembly.Path

/-!
Contract: where the files of an object live.

A fully qualified object name such as `org.eolang.io.stdout|0.28.10` has a base
and, behind the first bar, a version.  Every stage computes the place of a file
from the name alone, so two stages always agree on it.

Owns:
- `split`, `checkPlace` and `place`;
- `ofRelativePath`, which reads a name off a path and reverses `place` on names
  without collapsed dots;
- `nativeLetters`, the alphabet of generated function names.
-/

namespace EoAssembly.ObjectName

/-- The character between a base and a version. -/
def versionMark : Char := '|'

/-- The base of a name and its version, if it has one. -/
def split (name : String) : String × Option String :=
  match Text.splitFirst versionMark name with
  | some (base, version) => (base, some version)
  | none => (name, none)

/-- Whether a text holds a character that separates path components somewhere. -/
def holdsSeparator (text : String) : Bool :=
  Text.holds '/' text || Text.holds '\\' text

/-- Whether a version would not be one plain path component. -/
def badVersion (version : String) : Bool :=
  version == "" || version == "." || version == ".." || holdsSeparator version

/-- The cause of a name that would lead outside of its directory. -/
def misplaced (name : String) : Failure :=
  .configuration s!"Object name '{name}' doesn't map to a file inside the build"
    (some "Names and versions can't hold '/' or '\\', nor be '.' or '..'")

/-- Refuses the names that `place` would not keep inside its directory. -/
def checkPlace (name : String) : Except Failure Unit :=
  let (base, version) := split name
  if holdsSeparator base || version.any badVersion then .error (misplaced name) else .ok ()

/-- The parts of a base between its dots, where an empty part gives its dot to
the part that follows; `dotted` tells that an empty part came just before. -/
def placeParts : Bool → List String → List String
  | _, [] => []
  | dotted, part :: rest =>
    if part = "" then placeParts true rest
    else (if dotted then "." ++ part else part) :: placeParts false rest

/-- Parts below a directory, the last of them with an extension. -/
def placeBelow (directory : Path) (extension : String) : List String → Path
  | [] => directory
  | [last] => directory.child s!"{last}.{extension}"
  | part :: others => placeBelow (directory.child part) extension others

/-- The file of an object below `directory`: a directory for its version, then
one for each part of its base but the last. -/
def place (name : String) (directory : Path) (extension : String) : Path :=
  let (base, version) := split name
  let versioned := match version with
    | some tag => directory.child tag
    | none => directory
  placeBelow versioned extension (placeParts false (Text.splitAll '.' base))

/-- The names among path components. -/
def namesOf : List Path.Component → List String
  | [] => []
  | .named name :: rest => name :: namesOf rest
  | _ :: rest => namesOf rest

/-- The last of the names without its extension. -/
def dropExtension (extension : String) : List String → List String
  | [] => []
  | [last] => [(Text.dropTail? ("." ++ extension) last).getD last]
  | name :: others => name :: dropExtension extension others

/-- The object name of a file from its path below the sources. -/
def ofRelativePath (relative : Path) (extension : String) : String :=
  Text.joinAll '.' (dropExtension extension (namesOf relative.components))

/-- The lowercase letters and digits of a character's lower case, with every
other character of it written as `x`.  Beside the letters of ASCII only the
Kelvin sign and the dotted capital I have a lower case that holds one, and the
latter alone becomes two characters. -/
def nativeLetters (c : Char) : List Char :=
  if ('a' ≤ c ∧ c ≤ 'z') ∨ ('0' ≤ c ∧ c ≤ '9') then [c]
  else if 'A' ≤ c ∧ c ≤ 'Z' then [Char.ofNat (c.toNat + 32)]
  else if c = Char.ofNat 0x212A then ['k']
  else if c = Char.ofNat 0x130 then ['i', 'x']
  else ['x']

/-- The start of every function name generated for a directory. -/
def nativeStem (directory : Path) : String :=
  String.ofList (directory.text.toList.flatMap nativeLetters)

end EoAssembly.ObjectName
