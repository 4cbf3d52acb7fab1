import EoAssembly.Failure
import EoAssembly.Path

/-!
Contract: the state of one object of a build.

A record carries the files that each stage made of an object, the number of
names found in it once it is discovered, and what pulling recorded.

Owns `Record`, its two required views, and `Record.same`, which compares paths
by their components.
-/

namespace EoAssembly

/-- One tracked object. -/
structure Record where
  id : String
  source : Option Path := none
  xmir : Option Path := none
  optimized : Option Path := none
  discoveredAt : Option Path := none
  discovered : Option Nat := none
  pulled : Bool := false
  version : Option String := none
  hash : Option String := none
  status : Option String := none
  deriving DecidableEq

namespace Record

/-- The record of an object that no stage has touched. -/
def ofId (id : String) : Record := { id := id }

/-- The optimized document, which only exists behind its stage. -/
def requireOptimized (record : Record) : Except Failure Path :=
  match record.optimized with
  | some path => .ok path
  | none => .error (.notProcessed record.id "optimize")

/-- The source, which registering or pulling provides. -/
def requireSource (record : Record) : Except Failure Path :=
  match record.source with
  | some path => .ok path
  | none => .error (.notProcessed record.id "pull")

/-- The components of a path that may be missing. -/
def componentsOf (path : Option Path) : Option (List Path.Component) :=
  path.map Path.components

/-- Two records agree in everything, where paths agree by their components. -/
def same (left right : Record) : Bool :=
  left.id == right.id
    && componentsOf left.source == componentsOf right.source
    && componentsOf left.xmir == componentsOf right.xmir
    && componentsOf left.optimized == componentsOf right.optimized
    && componentsOf left.discoveredAt == componentsOf right.discoveredAt
    && left.discovered == right.discovered && left.pulled == right.pulled
    && left.version == right.version && left.hash == right.hash && left.status == right.status

end Record

end EoAssembly
