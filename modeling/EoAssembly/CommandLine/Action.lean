import EoAssembly.CommandLine.Arguments
import EoAssembly.Path
import EoAssembly.Terminal

/-!
Contract: the commands of the program.

Owns:
- `Action`, one constructor per command with its options;
- `Call.ofWords`, which reads a whole command line; options that every command
  knows may stand before and behind the command, and the latter win.
-/

namespace EoAssembly.CommandLine

/-- Where the project and the checkouts are. -/
structure ProjectOptions where
  settings : Option Path
  cacheRoot : Option Path
  deriving DecidableEq

/-- A shell with completion scripts. -/
inductive ShellKind where
  | bash
  | elvish
  | fish
  | powershell
  | zsh
  deriving DecidableEq

/-- A command with its options. -/
inductive Action where
  | register (project : ProjectOptions) (lenientNames withVersions : Bool)
  | assemble (project : ProjectOptions) (overwrite : Bool) (reference : Option String)
  | binarize (project : ProjectOptions) (noBuild : Bool) (cargo : Option String)
  | hash (project : ProjectOptions) (tag : String)
  | status (project : ProjectOptions) (verbose : Bool)
  | deps (project : ProjectOptions) (all : Bool)
  | completions (shell : ShellKind) (output : Option Path)
  deriving DecidableEq

/-- What a command line asks for. -/
structure Call where
  color : String
  action : Action
  deriving DecidableEq

/-- A switch. -/
def switch (name : String) : OptionKind := ⟨name, none, .nothing⟩

/-- The options that every command knows. -/
def commonKinds : List OptionKind := [⟨"color", none, .text⟩, ⟨"log-level", none, .text⟩]

/-- The options of every command on a project. -/
def projectKinds : List OptionKind :=
  commonKinds ++ [⟨"config", some 'c', .path⟩, ⟨"cache-root", none, .path⟩]

/-- A path that an option gives, or else a variable of the environment, which must
not be empty then. -/
def pathOption (environment : Environment) (reading : Reading) (name variableName : String) :
    Except Stop (Option Path) :=
  match reading.value? name, environment.lookup variableName with
  | some value, _ => .ok (some (.ofText value))
  | none, some value => if value = "" then .error .usage else .ok (some (.ofText value))
  | none, none => .ok none

/-- The project options of a reading. -/
def projectOptions (environment : Environment) (reading : Reading) :
    Except Stop ProjectOptions := do
  let settings ← pathOption environment reading "config" "EO_CONFIG"
  let cacheRoot ← pathOption environment reading "cache-root" "EO_CACHE"
  pure ⟨settings, cacheRoot⟩

/-- The shell with a name. -/
def ShellKind.ofName? (name : String) : Option ShellKind :=
  match name with
  | "bash" => some .bash
  | "elvish" => some .elvish
  | "fish" => some .fish
  | "powershell" => some .powershell
  | "zsh" => some .zsh
  | _ => none

/-- Reads the words behind a command on a project, which takes `limit` words. -/
def readProject (environment : Environment) (kinds : List OptionKind) (limit : Nat)
    (words : List String) : Except Stop (Reading × ProjectOptions) := do
  let reading ← readOnce (projectKinds ++ kinds) false false limit words
  let project ← projectOptions environment reading
  pure (reading, project)

/-- The names of the commands. -/
def commandNames : List String :=
  ["register", "assemble", "binarize", "hash", "status", "deps", "completions", "help"]

/-- Whether help can be given on the words behind `help`: at most one command. -/
def canExplain : List String → Bool
  | [] => true
  | [command] => commandNames.contains command
  | _ => false

/-- Reads the words behind a command; the answer tells the options that every
command knows, too. -/
def readAction (environment : Environment) (command : String) (words : List String) :
    Except Stop (Reading × Action) :=
  match command with
  | "register" => do
    let kinds := [switch "lenient-names", switch "with-versions"]
    let (reading, project) ← readProject environment kinds 0 words
    pure (reading,
      .register project (reading.has "lenient-names") (reading.has "with-versions"))
  | "assemble" => do
    let kinds := [switch "overwrite", ⟨"ref", none, .text⟩]
    let (reading, project) ← readProject environment kinds 0 words
    pure (reading, .assemble project (reading.has "overwrite") (reading.value? "ref"))
  | "binarize" => do
    let kinds := [switch "no-build", ⟨"cargo", none, .text⟩]
    let (reading, project) ← readProject environment kinds 0 words
    pure (reading, .binarize project (reading.has "no-build") (reading.value? "cargo"))
  | "hash" => do
    let (reading, project) ← readProject environment [] 1 words
    match reading.words with
    | [tag] => pure (reading, .hash project tag)
    | _ => throw .usage
  | "status" => do
    let (reading, project) ← readProject environment [⟨"verbose", some 'v', .nothing⟩] 0 words
    pure (reading, .status project (reading.has "verbose"))
  | "deps" => do
    let (reading, project) ← readProject environment [switch "all"] 0 words
    pure (reading, .deps project (reading.has "all"))
  | "completions" => do
    let reading ← readOnce (commonKinds ++ [⟨"output", some 'o', .path⟩]) false false 1 words
    match reading.words.map ShellKind.ofName? with
    | [some shell] => pure (reading, .completions shell ((reading.value? "output").map .ofText))
    | _ => throw .usage
  | "help" => throw (if canExplain words then .help else .usage)
  | _ => throw .usage

/-- Reads a command line. -/
def Call.ofWords (environment : Environment) (words : List String) : Except Stop Call := do
  let outer ← readOnce commonKinds true true 0 words
  match outer.words with
  | [] => throw .usage
  | command :: rest =>
    let (inner, action) ← readAction environment command rest
    let color := (inner.value? "color").getD ((outer.value? "color").getD "auto")
    pure ⟨color, action⟩

end EoAssembly.CommandLine
