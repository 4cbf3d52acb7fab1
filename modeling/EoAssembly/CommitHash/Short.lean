import EoAssembly.Failure

/-!
Contract: commit hashes and their short form.

Owns:
- `CommitHash`, a hash given in full, narrowed from another one, or remembered
  once it is known;
- `CommitHash.value`, which narrows to the first seven characters and refuses
  anything shorter.

A remembered hash has the value of the hash it remembers: values never change,
so remembering one is invisible.
-/

namespace EoAssembly

/-- A commit hash that may need computing. -/
inductive CommitHash where
  | full (text : String)
  | narrowed (hash : CommitHash)
  | remembered (hash : CommitHash)
  deriving DecidableEq

namespace CommitHash

/-- The number of characters of a short hash. -/
def shortLength : Nat := 7

/-- The cause of a hash too short to be narrowed. -/
def tooShort (text : String) : Failure :=
  .invalidHash text s!"expected at least {shortLength} characters"

/-- The first seven characters of a hash. -/
def narrow (text : String) : Except Failure String :=
  let short := text.toList.take shortLength
  if short.length = shortLength then .ok (String.ofList short) else .error (tooShort text)

/-- The text of a hash. -/
def value : CommitHash → Except Failure String
  | .full text => .ok text
  | .narrowed hash =>
    match hash.value with
    | .ok text => narrow text
    | .error failure => .error failure
  | .remembered hash => hash.value

end CommitHash

end EoAssembly
