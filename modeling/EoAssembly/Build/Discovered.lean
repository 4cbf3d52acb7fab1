import EoAssembly.Build.Workspace
import EoAssembly.Document.Names

/-!
Contract: from optimized documents to the objects they refer to.

Every object without the marker is looked through once: the names that its
optimized document refers to become objects of the catalog, which remember the
document they were first seen in.

Owns `discoverNames`, `discoverObject` and `discoverAll`.
-/

namespace EoAssembly.Build

/-- The names that the document at a path refers to. -/
def namesIn (disk : Disk) (optimized : Path) : Except Failure (List String) :=
  match Document.load disk optimized with
  | .ok document => .ok document.foreignNames
  | .error failure => .error failure

/-- A record that remembers the document it was first seen in. -/
def asSeenIn (document : Path) (record : Record) : Record :=
  { record with discoveredAt := some (record.discoveredAt.getD document) }

/-- A record of an object whose document refers to `count` names. -/
def asDiscovered (count : Nat) (record : Record) : Record :=
  { record with discovered := some count, status := some Status.discovered }

/-- Puts a name seen in a document into the catalog; the answer is the number of
objects this adds. -/
def discoverName (optimized : Path) (name : String) : Step Nat := do
  let known ← Step.look fun workspace => workspace.foreign.contains name
  if !known then
    let _ ← Step.addForeign name
  let _ ← Step.updateForeign name (asSeenIn optimized)
  pure (if known then 0 else 1)

/-- Puts names seen in a document into the catalog. -/
def discoverNames (optimized : Path) : List String → Step Nat
  | [] => pure 0
  | name :: rest => do
    let first ← discoverName optimized name
    let others ← discoverNames optimized rest
    pure (first + others)

/-- Looks through the optimized document of an object, if it has one. -/
def discoverObject (record : Record) : Step Nat :=
  match record.optimized with
  | none => pure 0
  | some optimized => do
    let disk ← Step.look Workspace.disk
    let names ← Step.ofOutcome (namesIn disk optimized)
    let added ← discoverNames optimized names
    let _ ← Step.updateForeign record.id (asDiscovered names.length)
    pure added

/-- Looks through objects, one after the other. -/
def discoverEach : List Record → Step Nat
  | [] => pure 0
  | record :: rest => do
    let first ← discoverObject record
    let others ← discoverEach rest
    pure (first + others)

/-- Looks through every object without the marker; the answer is the number of
objects this adds. -/
def discoverAll : Step Nat := do
  let pending ← Step.look fun workspace => workspace.foreign.notDiscovered
  discoverEach pending

end EoAssembly.Build
