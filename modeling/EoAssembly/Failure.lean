/-!
Contract: everything that can go wrong in a build, and its wording.

Owns:
- `Failure`, one constructor per family of causes;
- `Failure.message`, the one place where the wording of a family is fixed;
- `Grammar`, the foreign text formats whose readers can refuse a text.

Does not own: the causes themselves.  Each module that detects one names it as
a definition of type `Failure` beside the check.
-/

namespace EoAssembly

/-- A text format whose reader may refuse a text. -/
inductive Grammar where
  | json
  | glob
  | url
  | version
  deriving DecidableEq

/-- The words in front of a refusal of each format. -/
def Grammar.refusal : Grammar → String
  | .json => "JSON error"
  | .glob => "Glob pattern error"
  | .url => "URL parsing error"
  | .version => "Semver parsing error"

/-- A reason why a step of the build ended early. -/
inductive Failure where
  /-- Invalid or missing input; the hint tells how to mend it. -/
  | configuration (message : String) (hint : Option String)
  /-- The object was never put into the catalog. -/
  | notFound (id : String)
  /-- The object is in the catalog, but a stage has not reached it. -/
  | notProcessed (id stage : String)
  /-- The object store did not give the source of an object. -/
  | fetch (name message : String)
  /-- A command of the version control system failed. -/
  | gitCommand (command url stderr : String)
  /-- A repository could not be cloned at a reference. -/
  | gitClone (url reference message : String)
  /-- A file could not be read, written or replaced. -/
  | filesystem (message : String)
  /-- A document can't be read, parsed or written. -/
  | document (path message : String)
  /-- References of a document point nowhere. -/
  | brokenReferences (document references : String)
  /-- A commit hash has the wrong shape. -/
  | invalidHash (hash message : String)
  /-- The commit hash table has no such tag. -/
  | unknownTag (tag : String)
  /-- The native build failed; `output` is what it printed. -/
  | buildFailure (message output : String)
  /-- No function is registered for a locator. -/
  | nativeNotFound (locator : String)
  /-- A native function gave bytes that are no reply. -/
  | nativeReply (locator message : String)
  /-- The host refused an operation that has no wording of its own. -/
  | host (detail : String)
  /-- A text is not in its format. -/
  | malformed (grammar : Grammar) (detail : String)
  /-- A lock was left behind by a holder that failed. -/
  | lockPoisoned (context : String)
  /-- A request of the command line can't be served. -/
  | request (message : String)
  deriving DecidableEq

/-- The text shown for a failure. -/
def Failure.message : Failure → String
  | .configuration message none => s!"Configuration error: {message}"
  | .configuration message (some hint) => s!"Configuration error: {message}\n  hint: {hint}"
  | .notFound id => s!"Object '{id}' is not registered in the catalog"
  | .notProcessed id stage =>
    s!"Object '{id}' is registered but hasn't been processed by '{stage}' yet"
  | .fetch name message => s!"Can't fetch '{name}': {message}"
  | .gitCommand command url stderr => s!"Git command failed for {url}: {command} - {stderr}"
  | .gitClone url reference message => s!"Git clone error for {url}@{reference}: {message}"
  | .filesystem message => s!"Filesystem operation error: {message}"
  | .document path message => s!"Broken XMIR document {path}: {message}"
  | .brokenReferences label references => s!"Broken references in {label}: {references}"
  | .invalidHash hash message => s!"Invalid commit hash '{hash}': {message}"
  | .unknownTag tag => s!"Tag '{tag}' is not present in the commit hash table"
  | .buildFailure message output =>
    if output = "" then s!"Build failure: {message}" else s!"Build failure: {message}\n{output}"
  | .nativeNotFound locator => s!"No native function registered for '{locator}'"
  | .nativeReply locator message =>
    s!"Native function for '{locator}' returned an invalid reply: {message}"
  | .host detail => s!"I/O error: {detail}"
  | .malformed grammar detail => s!"{grammar.refusal}: {detail}"
  | .lockPoisoned context => s!"Lock poisoned: {context}"
  | .request message => message

end EoAssembly
