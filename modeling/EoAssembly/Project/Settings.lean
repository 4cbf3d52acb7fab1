import EoAssembly.Failure
import EoAssembly.Glob
import EoAssembly.Path
import EoAssembly.Project.Dependency
import EoAssembly.Url
import EoAssembly.Version

/-!
Contract: what a project says about its build.

Owns:
- `Settings` with a default for every field, and `StoreSettings`, where the
  sources of published objects are;
- `resolvedAgainst`, which puts relative paths below a directory;
- `checked`, which refuses values that no build can work with, the first reason
  in a fixed order: the store, the parser, the bound on cycles, the version of
  the project, the patterns.

Does not own: the text of a settings file.
-/

namespace EoAssembly

/-- The repository of published objects, and the reference for names without a
version. -/
structure StoreSettings where
  url : String := "https://github.com/objectionary/home.git"
  reference : String := "master"
  deriving DecidableEq

/-- The settings of a project. -/
structure Settings where
  /-- The directory of the sources. -/
  sources : Path := .ofText "src/main/eo"
  /-- The directory that every stage writes below. -/
  target : Path := .ofText "target/eo"
  /-- The directory of the provenance logs. -/
  protocols : Path := .ofText "target/eo-protocols"
  /-- Whether file names hold lowercase letters, digits and hyphens only. -/
  strictNames : Bool := true
  /-- Whether objects are registered as exported, too. -/
  withVersions : Bool := false
  /-- Whether objects are pulled again though their sources are there. -/
  overwrite : Bool := false
  /-- The patterns of the files to register. -/
  included : List String := ["**/*.eo"]
  /-- The patterns of the files to leave out. -/
  excluded : List String := []
  /-- The bound on the cycles of an assembly. -/
  maxCycles : Nat := 16
  /-- The command line of the parser. -/
  parser : List String := ["eo-parse"]
  /-- The program that builds native libraries. -/
  cargo : String := "cargo"
  /-- The file of the commit hash table, or nothing to list the remote tags. -/
  hashes : Option Path := none
  store : StoreSettings := {}
  project : Coordinates := {}
  dependencies : List Dependency := []
  deriving DecidableEq

namespace Settings

/-- A path below a directory, unless it is absolute. -/
def below (directory path : Path) : Path :=
  if path.isAbsolute then path else directory.join path

/-- The settings with every relative path below a directory. -/
def resolvedAgainst (settings : Settings) (directory : Path) : Settings :=
  { settings with
    sources := below directory settings.sources
    target := below directory settings.target
    protocols := below directory settings.protocols
    hashes := settings.hashes.map (below directory) }

/-- The default settings of a directory. -/
def rootedAt (directory : Path) : Settings :=
  ({} : Settings).resolvedAgainst directory

/-- The cause of a parser without a program. -/
def noParser : Failure :=
  .configuration "The parser command line is empty"
    (some "Set 'parser: [\x22eo-parse\x22]' in eo.yaml")

/-- The cause of a bound that no cycle fits into. -/
def noCycles : Failure :=
  .configuration "'max-cycles' must be positive" none

/-- The patterns among texts, up to the first that is none. -/
def patterns : List String → Except Failure (List Glob)
  | [] => .ok []
  | text :: rest =>
    match Glob.ofText? text with
    | none => .error (.malformed .glob text)
    | some glob =>
      match patterns rest with
      | .ok others => .ok (glob :: others)
      | .error failure => .error failure

/-- Whether the version of a project, if it has one, is a version. -/
def versionAllowed (project : Coordinates) : Bool :=
  project.version == "" || Version.wellFormed project.version

/-- The settings, unless a value makes a build impossible. -/
def checked (settings : Settings) : Except Failure Settings :=
  if !Url.wellFormed settings.store.url then .error (.malformed .url settings.store.url)
  else if settings.parser.isEmpty then .error noParser
  else if settings.maxCycles = 0 then .error noCycles
  else if !versionAllowed settings.project then
    .error (.malformed .version settings.project.version)
  else
    match patterns (settings.included ++ settings.excluded) with
    | .ok _ => .ok settings
    | .error failure => .error failure

end Settings

end EoAssembly
