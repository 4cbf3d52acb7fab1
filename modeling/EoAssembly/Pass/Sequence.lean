import EoAssembly.Pass.FloatUp
import EoAssembly.Pass.Markers
import EoAssembly.Pass.References

/-!
Contract: the passes that bring a document into its optimized form, in order.

Owns the seven passes by name, the name of the file that keeps the result of
each, and `optimized`, which runs them one after the other.
-/

namespace EoAssembly

/-- One named change of a document. -/
structure Pass where
  name : String
  apply : Document → Except Failure Document

namespace Pass

/-- Every pass, in the order they run. -/
def all : List Pass :=
  [⟨"globals-to-abstracts", fun document => .ok (globalsToAbstracts document)⟩,
    ⟨"remove-refs", fun document => .ok (removeRefs document)⟩,
    ⟨"abstracts-float-up", abstractsFloatUp⟩,
    ⟨"remove-levels", fun document => .ok (removeLevels document)⟩,
    ⟨"add-refs", fun document => .ok (addRefs document)⟩,
    ⟨"fix-missed-names", fun document => .ok (fixMissedNames document)⟩,
    ⟨"broken-refs", brokenRefs⟩]

/-- A number with at least two digits. -/
def twoDigits (value : Nat) : String :=
  if value < 10 then s!"0{value}" else toString value

/-- The file name of the result of the pass at a position. -/
def stepFile (index : Nat) (pass : Pass) : String :=
  s!"{twoDigits (index + 1)}-{pass.name}.xml"

/-- Runs passes one after the other. -/
def runAll : List Pass → Document → Except Failure Document
  | [], document => .ok document
  | pass :: rest, document =>
    match pass.apply document with
    | .ok next => runAll rest next
    | .error failure => .error failure

/-- The optimized form of a document. -/
def optimized (document : Document) : Except Failure Document := runAll all document

end Pass

end EoAssembly
