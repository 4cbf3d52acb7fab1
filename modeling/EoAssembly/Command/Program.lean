/-!
Contract: running a program, as a value.

A program gets its arguments, its environment, the bytes on its input and the
name of the directory it runs in; it gives the bytes of its two outputs and a
status, zero for success.

Owns `Invocation`, `Completion` and the type of a set of programs.
-/

namespace EoAssembly.Command

/-- What a program is started with. -/
structure Invocation where
  program : String
  arguments : List String
  environment : List (String × String)
  input : List UInt8
  directory : String

/-- What a program left behind; a killed program has no status. -/
structure Completion where
  status : Option Nat
  output : List UInt8
  errors : List UInt8
  deriving DecidableEq

/-- Whether a program ended well. -/
def Completion.succeeded (completion : Completion) : Bool := completion.status == some 0

/-- A set of programs: nothing when there is no such program. -/
abbrev Toolbox := Invocation → Option Completion

/-- The bytes of a text. -/
def bytesOf (text : String) : List UInt8 := text.toUTF8.toList

end EoAssembly.Command
