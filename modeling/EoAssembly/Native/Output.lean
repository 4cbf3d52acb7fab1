import EoAssembly.Document.Basic

/-!
Contract: writing generated files only when their content changes, so that the
native toolchain rebuilds nothing it doesn't have to.
-/

namespace EoAssembly.Native

/-- Whether the file at a path holds exactly a text. -/
def holdsText (disk : Disk) (path : Path) (content : String) : Bool :=
  match disk.readText path with
  | .ok existing => existing == content
  | .error _ => false

/-- Writes a text to a path unless the file there holds exactly that; the answer
tells whether it was written. -/
def writeIfChanged (disk : Disk) (path : Path) (content : String) :
    Except Failure Bool × Disk :=
  if holdsText disk path content then (.ok false, disk)
  else
    match Document.writeBelow disk path content with
    | (.ok (), next) => (.ok true, next)
    | (.error failure, next) => (.error failure, next)

end EoAssembly.Native
