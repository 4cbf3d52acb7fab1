import EoAssembly.Disk
import EoAssembly.Json.Reader
import EoAssembly.Native.Reply
import EoAssembly.Ordered

/-!
Contract: from the locator of a native insert to the function generated for it.

A table maps locators to function names, and functions are registered by name; a
call goes from locator to name to function and decodes what the function gives.

Owns `NativeRegistry`, the reader of its table and its calls.
-/

namespace EoAssembly

/-- A native function: bytes in, the bytes of a reply out. -/
abbrev NativeFunction := List UInt8 → List UInt8

/-- Function names by locator, and functions by name. -/
structure NativeRegistry where
  names : List (String × String)
  functions : List (String × NativeFunction)

namespace NativeRegistry

/-- A registry of a table without functions; the later of two names for one
locator holds. -/
def ofNames (names : List (String × String)) : NativeRegistry :=
  ⟨Ordered.ofList Prod.fst names, []⟩

/-- The cause of a table that can't be read. -/
def namesUnreadable (path : Path) (refusal : Refusal) : Failure :=
  .configuration s!"Can't read native names '{path.text}': {refusal.message}"
    (some "Run 'eo-build binarize' first")

/-- Texts by name, when every member of an object is one. -/
def textMembers? : List (String × Json.Value) → Option (List (String × String))
  | [] => some []
  | (key, value) :: rest =>
    match value.text?, textMembers? rest with
    | some text, some others => some ((key, text) :: others)
    | _, _ => none

/-- Reads a table from its text. -/
def namesOfText (text : String) : Except Failure (List (String × String)) :=
  match Json.Value.ofText? text with
  | some (.object members) =>
    match textMembers? members with
    | some names => .ok names
    | none => .error (.malformed .json "expected a string")
  | some _ => .error (.malformed .json "expected a map")
  | none => .error (.malformed .json "not a value")

/-- Reads the table at a path. -/
def load (disk : Disk) (path : Path) : Except Failure NativeRegistry :=
  match disk.readText path with
  | .error refusal => .error (namesUnreadable path refusal)
  | .ok text => (namesOfText text).map ofNames

/-- A registry with one more function, in place of one of the same name. -/
def register (registry : NativeRegistry) (name : String) (function : NativeFunction) :
    NativeRegistry :=
  { registry with functions := (name, function) :: registry.functions }

/-- The function for the insert at a locator. -/
def resolve (registry : NativeRegistry) (locator : String) : Except Failure NativeFunction :=
  match (registry.names.lookup locator).bind fun name => registry.functions.lookup name with
  | some function => .ok function
  | none => .error (.nativeNotFound locator)

/-- Calls the function for the insert at a locator. -/
def call (registry : NativeRegistry) (locator : String) (input : List UInt8) :
    Except Failure Reply :=
  match registry.resolve locator with
  | .ok function => Reply.decode locator (function input)
  | .error failure => .error failure

end NativeRegistry

end EoAssembly
