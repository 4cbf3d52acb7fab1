import EoAssembly.Command.Program
import EoAssembly.Failure
import EoAssembly.Text.Blank
import EoAssembly.Text.Utf8

/-!
Contract: parsing the source of an object with a program.

The program gets the source on its input and the name of the object in
`EO_OBJECT`; what it writes is the document, and what it writes to its errors is
the reason when it fails.

Owns `parseWith` and the causes of its failures.
-/

namespace EoAssembly.Command

/-- The cause of a command line without a program. -/
def emptyParser : Failure :=
  .configuration "The parser command line is empty" none

/-- The cause of a program that does not start. -/
def parserMissing (program : String) : Failure :=
  .configuration s!"Can't start parser '{program}': No such file or directory (os error 2)"
    (some "Set 'parser:' in eo.yaml")

/-- The cause of a program that fails. -/
def parserFailed (id program errors : String) : Failure :=
  .document id s!"Parser '{program}' failed: {errors}"

/-- The cause of output that is no text. -/
def parserOutputBroken (id : String) : Failure :=
  .document id "Parser output is not UTF-8"

/-- The document that a command line makes of the source of an object. -/
def parseWith (toolbox : Toolbox) (directory : String) (command : List String)
    (id source : String) : Except Failure String :=
  match command with
  | [] => .error emptyParser
  | program :: arguments =>
    match toolbox ⟨program, arguments, [("EO_OBJECT", id)], bytesOf source, directory⟩ with
    | none => .error (parserMissing program)
    | some completion =>
      if completion.succeeded then
        match Text.ofUtf8? completion.output with
        | some document => .ok document
        | none => .error (parserOutputBroken id)
      else
        .error (parserFailed id program (Text.trim (Text.ofBytesLenient completion.errors)))

end EoAssembly.Command
