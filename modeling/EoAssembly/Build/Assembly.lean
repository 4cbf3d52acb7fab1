import EoAssembly.Build.Optimized
import EoAssembly.Build.Pulled
import EoAssembly.Build.Registered

/-!
Contract: the whole way from the sources of a project to optimized documents of
all objects it needs.

The sources are registered once.  Then cycles of parsing, optimizing,
discovering and pulling follow, until a cycle leaves the state of every object
as it was.

Owns `cycle`, `settle` and `assemble`.
-/

namespace EoAssembly.Build

/-- What an assembly did. -/
structure Assembly where
  registered : Nat
  /-- The cycles that ran, with the last one, which changed nothing. -/
  cycles : Nat
  pulled : Nat
  /-- The objects in the catalog at the end. -/
  objects : Nat
  deriving DecidableEq

/-- The cause of a build that still changes after all cycles it may take. -/
def notSettled (bound : Nat) : Failure :=
  .configuration s!"The build didn't settle after {bound} cycles"
    (some "Raise 'max-cycles' in eo.yaml")

/-- One cycle; the answer is the number of sources fetched. -/
def cycle (settings : Settings) (remote : Remote) : Step Nat := do
  let _ ← parseAll settings remote
  let _ ← optimizeAll settings.target
  let _ ← discoverAll
  pullAll settings remote

/-- Runs at most `left` cycles, until one leaves the state of every object as it
was; the answer is the number of cycles and that of sources fetched. -/
def settle (settings : Settings) (remote : Remote) : Nat → Step (Nat × Nat)
  | 0 => Step.fail (notSettled settings.maxCycles)
  | left + 1 => do
    let before ← Step.look fun workspace => workspace.foreign.state
    let fetched ← cycle settings remote
    let after ← Step.look fun workspace => workspace.foreign.state
    if before = after then
      pure (1, fetched)
    else
      let (cycles, others) ← settle settings remote left
      pure (cycles + 1, fetched + others)

/-- Assembles a project, on the catalogs that are in its target. -/
def assemble (settings : Settings) (remote : Remote) : Step Assembly := do
  Workspace.reopen settings.target
  let registered ← register settings
  let (cycles, pulled) ← settle settings remote settings.maxCycles
  let objects ← Step.look fun workspace => workspace.foreign.size
  pure ⟨registered, cycles, pulled, objects⟩

end EoAssembly.Build
