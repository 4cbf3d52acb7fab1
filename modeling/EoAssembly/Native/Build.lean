import EoAssembly.Command.Program
import EoAssembly.Disk
import EoAssembly.Failure
import EoAssembly.Text.Utf8

/-!
Contract: building the native library with a program in its directory.

The output of a build is what the program wrote, the plain output first and the
errors on a line of their own behind it.  A build that was cancelled fails with
what was written so far.

Owns `NativeBuild` and its run.
-/

namespace EoAssembly.Native

/-- A build of one directory. -/
structure NativeBuild where
  program : String
  arguments : List String
  directory : Path
  deriving DecidableEq

namespace NativeBuild

/-- The default build of a directory. -/
def ofProgram (program : String) (directory : Path) : NativeBuild :=
  ⟨program, ["build"], directory⟩

/-- Both outputs of a program as one text. -/
def collected (completion : Command.Completion) : String :=
  let output := Text.ofBytesLenient completion.output
  let errors := Text.ofBytesLenient completion.errors
  if output = "" then errors
  else if errors = "" then output
  else s!"{output}\n{errors}"

/-- The cause of a program that does not start. -/
def notStarted (build : NativeBuild) : Failure :=
  .buildFailure
    s!"Can't start '{build.program}' in {build.directory.text}: {Refusal.missing.message}" ""

/-- The cause of a build that was cancelled. -/
def interrupted (build : NativeBuild) (output : String) : Failure :=
  .buildFailure s!"Interrupted while building {build.directory.text}" output

/-- The cause of a build that failed. -/
def failed (build : NativeBuild) (output : String) : Failure :=
  .buildFailure s!"Failed to build cargo project with dest = {build.directory.text}" output

/-- The name of the directory of a build, from the root on. -/
def directoryText (disk : Disk) (path : Path) : String :=
  match disk.resolve? path with
  | some location => "/" ++ Text.joinAll '/' location
  | none => path.text

/-- Runs a build to its end, or until it is cancelled; the answer is its output. -/
def run (build : NativeBuild) (toolbox : Command.Toolbox) (disk : Disk) (cancelled : Bool) :
    Except Failure String :=
  if !disk.isDirectory build.directory then .error build.notStarted
  else
    match toolbox ⟨build.program, build.arguments, [], [], directoryText disk build.directory⟩ with
    | none => .error build.notStarted
    | some completion =>
      if cancelled then .error (build.interrupted "")
      else if completion.succeeded then .ok (collected completion)
      else .error (build.failed (collected completion))

end NativeBuild

end EoAssembly.Native
