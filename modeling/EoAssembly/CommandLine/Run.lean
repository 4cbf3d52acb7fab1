import EoAssembly.Command.Parser
import EoAssembly.CommandLine.Report
import EoAssembly.Git.Client
import EoAssembly.ObjectStore.Basic
import EoAssembly.Project.CacheRoot
import EoAssembly.Project.File

/-!
Contract: what a command line does to the files, and how it ends.

Owns:
- `Host`, everything about a process but its files;
- `perform`, which runs one command, and `run`, which reads the words first;
- `Outcome` with its code: zero for success, one for a failure, two for words that
  make no sense.
-/

namespace EoAssembly.CommandLine

/-- The surroundings of a process. -/
structure Host where
  environment : Environment
  client : Git.Client
  toolbox : Command.Toolbox
  /-- Whether the output goes to a terminal with colors. -/
  terminal : Bool
  /-- The text of the present instant. -/
  instant : String

/-- How a process ended. -/
inductive Outcome where
  | finished (color : Bool) (report : Report)
  | failed (failure : Failure)
  | stopped (reason : Stop)
  deriving DecidableEq

/-- The name of the settings file of a project. -/
def settingsFile : String := "eo.yaml"

/-- The version of the program. -/
def programVersion : String := "0.29.0"

/-- The cause of a settings file that is not there. -/
def noSettings (path : Path) : Failure :=
  .request s!"Configuration file not found: {path.text}"

/-- The cause of an output file that can't be created. -/
def notCreated (path : Path) : Failure := .request s!"Can't create {path.text}"

/-- The settings of a project: those in the file that is given, else those in the
current directory, else the defaults of that directory. -/
def loadSettings (project : ProjectOptions) (disk : Disk) : Except Failure Settings :=
  match project.settings with
  | some path => if disk.exists? path then Settings.ofFile disk path else .error (noSettings path)
  | none =>
    let here := Settings.currentDirectory disk
    let file := here.child settingsFile
    if disk.exists? file then Settings.ofFile disk file else .ok (Settings.rootedAt here)

/-- The directory of checkouts. -/
def checkouts (host : Host) (project : ProjectOptions) : Path :=
  project.cacheRoot.getD (Project.cacheRoot host.environment)

/-- The commit hash table text of a project. -/
def tableText (host : Host) (settings : Settings) (disk : Disk) : Except Failure String :=
  match settings.hashes with
  | some path => CommitHash.readTable disk path
  | none => host.client.tagRows settings.store.url disk

/-- The outside of a build. -/
def remoteOf (host : Host) (project : ProjectOptions) (settings : Settings) (disk : Disk) :
    Remote where
  fetch := fun name present =>
    ObjectStore.fetch ⟨settings.store.url, settings.store.reference, checkouts host project⟩
      host.client.clone name present
  parse := fun id source =>
    Command.parseWith host.toolbox (Settings.currentDirectory disk).text settings.parser id source
  table := tableText host settings

/-- A workspace on which nothing is open. -/
def closedWorkspace (host : Host) (settings : Settings) (disk : Disk) : Workspace :=
  let foreign : Catalog := ⟨settings.target.child Catalogs.foreignFile, []⟩
  let external : Catalog := ⟨settings.target.child Catalogs.externalFile, []⟩
  ⟨disk, foreign, external, .empty, [], host.instant⟩

/-- Runs a step on the catalogs of a project. -/
def onCatalogs {α : Type} (host : Host) (settings : Settings) (disk : Disk) (step : Step α)
    (report : α → Report) : Except Failure Report × Disk :=
  let whole : Step Report := do
    Workspace.reopen settings.target
    let value ← step
    pure (report value)
  let (outcome, workspace) := whole.perform (closedWorkspace host settings disk)
  (outcome, workspace.disk)

/-- Runs a command on the settings of a project. -/
def onSettings (project : ProjectOptions) (disk : Disk)
    (command : Settings → Except Failure Report × Disk) : Except Failure Report × Disk :=
  match loadSettings project disk with
  | .ok settings => command settings
  | .error failure => (.error failure, disk)

/-- The short hash of a tag of a project. -/
def shortHash (host : Host) (settings : Settings) (tag : String) (disk : Disk) :
    Except Failure String :=
  match (TableSlot.empty.table (tableText host settings disk)).1 with
  | .ok table => table.get tag
  | .error failure => .error failure

/-- Runs a command. -/
def perform (host : Host) (disk : Disk) : Action → Except Failure Report × Disk
  | .register project lenientNames withVersions =>
    onSettings project disk fun loaded =>
      let settings :=
        { loaded with
          strictNames := loaded.strictNames && !lenientNames
          withVersions := loaded.withVersions || withVersions }
      onCatalogs host settings disk (Build.register settings) .registered
  | .assemble project overwrite reference =>
    onSettings project disk fun loaded =>
      let store := { loaded.store with reference := reference.getD loaded.store.reference }
      let settings := { loaded with overwrite := loaded.overwrite || overwrite, store := store }
      onCatalogs host settings disk
        (Build.assemble settings (remoteOf host project settings disk)) .assembled
  | .binarize project noBuild cargo =>
    onSettings project disk fun loaded =>
      let settings := { loaded with cargo := cargo.getD loaded.cargo }
      onCatalogs host settings disk
        (Native.Library.binarize settings host.toolbox (!noBuild) false) .binarized
  | .hash project tag =>
    onSettings project disk fun settings =>
      ((shortHash host settings tag disk).map Report.hash, disk)
  | .status project verbose =>
    onSettings project disk fun settings =>
      onCatalogs host settings disk (Step.look fun workspace => workspace) fun workspace =>
        .status verbose workspace.foreign workspace.external
  | .deps project all =>
    onSettings project disk fun settings => (.ok (.dependencies all settings), disk)
  | .completions shell none => (.ok (.script (completionScript shell)), disk)
  | .completions shell (some path) =>
    match disk.writeText path (completionScript shell) with
    | (.ok (), next) => (.ok (.script ""), next)
    | (.error _, next) => (.error (notCreated path), next)

/-- Runs a command line on the files. -/
def run (host : Host) (words : List String) (disk : Disk) : Outcome × Disk :=
  match Call.ofWords host.environment words with
  | .error stop => (.stopped stop, disk)
  | .ok call =>
    match perform host disk call.action with
    | (.ok report, next) =>
      (.finished (Terminal.useColor call.color host.environment host.terminal) report, next)
    | (.error failure, next) => (.failed failure, next)

namespace Outcome

/-- The code of a process. -/
def code : Outcome → Nat
  | .finished .. => 0
  | .failed _ => 1
  | .stopped .usage => 2
  | .stopped _ => 0

/-- The usage of the program. -/
def usageText : String :=
  s!"Usage: {programName} [OPTIONS] <COMMAND>\n\nCommands: {commandWords}\n"

/-- What a process prints. -/
def output (seconds : String) : Outcome → String
  | .finished color report => report.render color seconds
  | .stopped .help => usageText
  | .stopped .version => s!"{programName} {programVersion}\n"
  | _ => ""

/-- What a process tells about a failure. -/
def error? : Outcome → Option String
  | .failed failure => some failure.message
  | _ => none

/-- What a process writes to its errors. -/
def errors : Outcome → String
  | .failed failure => s!"Error: {failure.message}\n"
  | .stopped .usage => usageText
  | _ => ""

end Outcome

end EoAssembly.CommandLine
