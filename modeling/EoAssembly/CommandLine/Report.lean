import EoAssembly.Build.Assembly
import EoAssembly.CommandLine.Completion
import EoAssembly.Native.Library
import EoAssembly.Terminal

/-!
Contract: what a command found or did, and how that is printed.

Owns:
- `Report`, one constructor per kind of result;
- `Report.render`, which prints a report, with the seconds that the command took
  where they are told.
-/

namespace EoAssembly.CommandLine

/-- The result of a command. -/
inductive Report where
  | registered (count : Nat)
  | assembled (assembly : Build.Assembly)
  | binarized (library : Native.LibraryReport)
  | hash (text : String)
  | status (verbose : Bool) (foreign external : Catalog)
  | dependencies (all : Bool) (settings : Settings)
  | script (text : String)
  deriving DecidableEq

namespace Report

/-- The line of a finished command. -/
def doneLine (color : Bool) (message : String) : String := Terminal.done color message ++ "\n"

/-- The message of a finished assembly. -/
def assemblyMessage (seconds : String) (assembly : Build.Assembly) : String :=
  s!"Assembled {assembly.objects} object(s) in {seconds}s ({assembly.registered} registered, "
    ++ s!"{assembly.pulled} pulled, {assembly.cycles} cycle(s))"

/-- The message of a finished library. -/
def libraryMessage (library : Native.LibraryReport) : String :=
  let state := if library.built then "built" else "generated"
  s!"{library.functions.length} native insert(s) {state}, {library.written} file(s) changed"

/-- The line about a record. -/
def objectLine (record : Record) : String :=
  "  " ++ record.id ++ " " ++ record.status.getD "-" ++ "\n"

/-- The lines about a catalog; `verbose` adds one for each object. -/
def statusLines (color verbose : Bool) (label : String) (catalog : Catalog) : String :=
  let summary := s!"{catalog.size} object(s), digest {catalog.digest}"
  Terminal.field color label summary ++ "\n"
    ++ if verbose then String.join (catalog.records.map objectLine) else ""

/-- The line about a dependency that some filter refuses. -/
def refusedLine (filters : List DependencyFilter) (dependency : Dependency) : String :=
  dependency.text ++ " filtered by "
    ++ ", ".intercalate (Dependency.rejectedBy filters dependency) ++ "\n"

/-- The lines about the dependencies of a project; `all` adds those that are not kept. -/
def dependencyLines (all : Bool) (settings : Settings) : String :=
  let filters := Dependency.filters settings.project
  let kept := Dependency.kept filters settings.dependencies
  let refused := settings.dependencies.filter fun dependency => !kept.contains dependency
  String.join (kept.map fun dependency => dependency.text ++ "\n")
    ++ if all then String.join (refused.map (refusedLine filters)) else ""

/-- The text of a report. -/
def render (color : Bool) (seconds : String) : Report → String
  | .registered count => doneLine color s!"Registered {count} EO source(s)"
  | .assembled assembly => doneLine color (assemblyMessage seconds assembly)
  | .binarized library => doneLine color (libraryMessage library)
  | .hash text => text ++ "\n"
  | .status verbose foreign external =>
    statusLines color verbose "foreign" foreign ++ statusLines color verbose "external" external
  | .dependencies all settings => dependencyLines all settings
  | .script text => text

end Report

end EoAssembly.CommandLine
