import EoAssembly.Build.Parsed
import EoAssembly.Pass.Sequence

/-!
Contract: from the documents of objects to their optimized forms.

The passes run one after the other, and the result of each is kept for
inspection.  A document whose optimized form exists is not touched.  The catalog
changes once all documents are done.

Owns `optimizeDocument`, `optimizeEach`, which takes its documents in any order,
`recordOptimized`, and `optimizeAll`.
-/

namespace EoAssembly.Build

/-- The directory of the results of single passes below the target. -/
def stepsDirectory : String := "02-steps"

/-- The directory of optimized documents below the target. -/
def optimizedDirectory : String := "03-optimize"

/-- The place of the optimized document of an object. -/
def optimizedPlace (target : Path) (id : String) : Path :=
  ObjectName.place id (target.child optimizedDirectory) documentExtension

/-- The directory of the results of single passes for an object. -/
def stepsPlace (target : Path) (id : String) : Path :=
  (ObjectName.place id (target.child stepsDirectory) documentExtension).withoutExtension

/-- Runs passes from a position on and keeps the result of each below a directory. -/
def runPasses (directory : Path) : Nat → List Pass → Document → Step Document
  | _, [], document => pure document
  | index, pass :: rest, document => do
    let next ← Step.ofOutcome (pass.apply document)
    Step.save next (directory.child (Pass.stepFile index pass))
    runPasses directory (index + 1) rest next

/-- Makes the optimized form of a document, unless it exists. -/
def optimizeDocument (target : Path) (id : String) (xmir : Path) : Step Path := do
  let place := optimizedPlace target id
  let disk ← Step.look Workspace.disk
  if disk.exists? place then
    pure place
  else
    let document ← Step.load xmir
    let optimized ← runPasses (stepsPlace target id) 0 Pass.all document
    Step.save optimized place
    pure place

/-- Makes the optimized forms of documents in the given order; the answer pairs
each object with its optimized form. -/
def optimizeEach (target : Path) : List (String × Path) → Step (List (String × Path))
  | [] => pure []
  | (id, xmir) :: rest => do
    let place ← optimizeDocument target id xmir
    let others ← optimizeEach target rest
    pure ((id, place) :: others)

/-- A record with an optimized document. -/
def asOptimized (document : Path) (record : Record) : Record :=
  { record with optimized := some document, status := some Status.optimized }

/-- Records optimized documents, one after the other. -/
def recordOptimized : List (String × Path) → Step Unit
  | [] => pure ()
  | (id, place) :: rest => do
    let _ ← Step.updateForeign id (asOptimized place)
    recordOptimized rest

/-- The document of an object that waits for its optimized form. -/
def awaitsOptimize (record : Record) : Option (String × Path) :=
  if record.optimized.isNone then record.xmir.map fun xmir => (record.id, xmir) else none

/-- The objects that wait for their optimized forms, with their documents. -/
def unoptimized (catalog : Catalog) : List (String × Path) :=
  catalog.records.filterMap awaitsOptimize

/-- Makes and records the optimized forms of documents in the given order. -/
def optimizeThese (target : Path) (pending : List (String × Path)) : Step Nat := do
  let done ← optimizeEach target pending
  recordOptimized done
  pure done.length

/-- Makes every missing optimized form; the answer is their number. -/
def optimizeAll (target : Path) : Step Nat := do
  let pending ← Step.look fun workspace => unoptimized workspace.foreign
  optimizeThese target pending

end EoAssembly.Build
