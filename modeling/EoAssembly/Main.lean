import EoAssembly.Command.Shell
import EoAssembly.CommandLine.Instant
import EoAssembly.CommandLine.Run
import Std.Time

/-!
Contract: the process around a command line.

The files that a command may look at are read, the command runs on them as
values, and what it changed is written.  Nothing is decided here.
-/

namespace EoAssembly.Program

/-- The text of a location. -/
def placeText (location : Location) : String := "/" ++ Text.joinAll '/' location

/-- Everything at and below a location; what can't be read is taken as missing. -/
partial def entriesAt (location : Location) : IO (List (Location × Entry)) := do
  try
    let place := (← IO.currentDir) / placeText location
    if ← place.isDir then
      let found ← place.readDir
      let inner ← found.toList.mapM fun entry => entriesAt (location ++ [entry.fileName])
      pure ((location, .directory) :: inner.flatten)
    else if ← place.pathExists then
      let bytes ← IO.FS.readBinFile place
      pure [(location, .file (.ofBytes bytes))]
    else
      pure []
  catch _ =>
    pure []

/-- A disk with everything at and below a path. -/
def withPath (disk : Disk) (path : Path) : IO Disk := do
  match disk.resolve? path with
  | none => pure disk
  | some location =>
    let above := (List.range location.length).map fun depth => location.take depth
    let found ← entriesAt location
    let opened := above.foldl (fun known directory =>
      if directory.isEmpty || (known.entryAt? directory).isSome then known
      else known.put directory .directory) disk
    pure (found.foldl (fun known entry => known.put entry.1 entry.2) opened)

/-- A disk with everything at and below paths. -/
def withPaths (disk : Disk) (paths : List Path) : IO Disk := paths.foldlM withPath disk

/-- The project options of an action, if it works on a project. -/
def projectOf? : CommandLine.Action → Option CommandLine.ProjectOptions
  | .register project _ _ => some project
  | .assemble project _ _ => some project
  | .binarize project _ _ => some project
  | .hash project _ => some project
  | .status project _ => some project
  | .deps project _ => some project
  | .completions _ _ => none

/-- The paths that settings lead to. -/
def pathsOf (settings : Settings) : List Path :=
  [settings.sources, settings.target, settings.protocols] ++ settings.hashes.toList

/-- The disk that a command line works on. -/
def diskFor (host : CommandLine.Host) (words : List String) (current : Location) : IO Disk := do
  let here ← withPath (Disk.empty current) (.ofText (placeText current))
  match (CommandLine.Call.ofWords host.environment words).toOption.bind
      fun call => projectOf? call.action with
  | none => pure here
  | some project =>
    let near ← withPaths here ((project.settings.bind Path.parent?).toList)
    match CommandLine.loadSettings project near with
    | .error _ => pure near
    | .ok settings => withPaths near (CommandLine.checkouts host project :: pathsOf settings)

/-- Writes what differs between two disks. -/
def writeBack (before after : Disk) : IO Unit := do
  let root ← IO.currentDir
  let changed := after.entries.filter fun entry => before.entryAt? entry.1 != some entry.2
  let ordered := changed.mergeSort fun left right => decide (left.1.length ≤ right.1.length)
  for (location, _) in before.entries do
    if (after.entryAt? location).isNone then
      let place := root / placeText location
      if ← place.isDir then IO.FS.removeDirAll place
      else if ← place.pathExists then IO.FS.removeFile place
  for (location, entry) in ordered do
    let place := root / placeText location
    match entry with
    | .directory => IO.FS.createDirAll place
    | .file content => IO.FS.writeBinFile place content.toBytes

/-- The variables that a command line looks at. -/
def variableNames : List String :=
  ["HOME", "XDG_CACHE_HOME", "EO_CONFIG", "EO_CACHE", "NO_COLOR", "CLICOLOR", "CLICOLOR_FORCE",
    "TERM"]

/-- The environment of the process. -/
def environment : IO Environment := do
  let found ← variableNames.mapM fun name => do
    pure ((← IO.getEnv name).map fun value => (name, value))
  pure (found.filterMap id)

end EoAssembly.Program

open EoAssembly in
/-- Runs the program. -/
def main (words : List String) : IO UInt32 := do
  let start ← IO.monoMsNow
  let now ← Std.Time.Timestamp.now
  let milliseconds := now.toMillisecondsSinceUnixEpoch.val.toNat
  let output ← IO.getStdout
  let host : CommandLine.Host :=
    { environment := ← Program.environment
      client := .absent
      toolbox := Command.programs
      terminal := ← output.isTty
      instant := Instant.text milliseconds }
  let current := (Path.ofText (toString (← IO.currentDir))).components.filterMap fun
    | .named name => some name
    | _ => none
  let before ← Program.diskFor host words current
  let (outcome, after) := CommandLine.run host words before
  Program.writeBack before after
  let took := (← IO.monoMsNow) - start
  output.putStr (outcome.output (Instant.secondsText took))
  output.flush
  (← IO.getStderr).putStr outcome.errors
  pure (UInt32.ofNat outcome.code)
