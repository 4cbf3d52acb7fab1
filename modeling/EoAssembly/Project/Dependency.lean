import EoAssembly.Text.Pieces

/-!
Contract: the libraries a project depends on, and those that take part in it.

A filter is a named test of a dependency, and a dependency takes part when every
filter accepts it.

Owns:
- `Coordinates` of a project and `Dependency` with its text;
- the filters of a project and `Dependency.kept`, which preserves the order;
- `Dependency.rejectedBy`, the names of the filters that refuse a dependency.
-/

namespace EoAssembly

/-- The group, the artifact and the version of a project. -/
structure Coordinates where
  group : String := ""
  artifact : String := ""
  version : String := ""
  deriving DecidableEq

/-- A library that a project depends on. -/
structure Dependency where
  group : String
  artifact : String
  version : String
  scope : String
  deriving DecidableEq

/-- A named test of a dependency. -/
structure DependencyFilter where
  name : String
  accepts : Dependency → Bool

namespace Dependency

/-- The scope of a dependency that names none. -/
def defaultScope : String := "compile"

/-- The text of a dependency. -/
def text (dependency : Dependency) : String :=
  s!"{dependency.group}:{dependency.artifact}:{dependency.version} ({dependency.scope})"

/-- Refuses the runtime, which is always there. -/
def notRuntime : DependencyFilter :=
  ⟨"not-runtime", fun dependency =>
    !(dependency.group == "org.eolang" && dependency.artifact == "eo-runtime")⟩

/-- Refuses what is there for tests only. -/
def notTesting : DependencyFilter :=
  ⟨"not-testing", fun dependency => !Text.mentions "test" dependency.scope⟩

/-- Refuses a project as a dependency of itself, whatever its version. -/
def notSame (project : Coordinates) : DependencyFilter :=
  ⟨"not-same", fun dependency =>
    !(dependency.group == project.group && dependency.artifact == project.artifact)⟩

/-- The filters of a project. -/
def filters (project : Coordinates) : List DependencyFilter :=
  [notRuntime, notTesting, notSame project]

/-- The dependencies that every filter accepts, in their order. -/
def kept (filters : List DependencyFilter) (dependencies : List Dependency) :
    List Dependency :=
  dependencies.filter fun dependency => filters.all fun rule => rule.accepts dependency

/-- The names of the filters that refuse a dependency. -/
def rejectedBy (filters : List DependencyFilter) (dependency : Dependency) : List String :=
  (filters.filter fun rule => !rule.accepts dependency).map DependencyFilter.name

end Dependency

end EoAssembly
