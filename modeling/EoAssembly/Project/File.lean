import EoAssembly.Disk
import EoAssembly.Project.Settings
import EoAssembly.Text.Blank
import EoAssembly.Text.Lines
import EoAssembly.Yaml.Node

/-!
Contract: the text of a settings file.

A settings file is one YAML mapping whose keys are all optional; a text of
comments and blank lines alone stands for the defaults.  Keys that nobody knows
are refused at the top and ignored inside of a part, and a known key may come
only once.  Texts are taken as written, whatever they look like; truth values
and numbers are never quoted.

Owns `Settings.ofText` and `Settings.ofFile`, which puts relative paths below
the directory of the file.
-/

namespace EoAssembly.Settings

open Yaml (Node)

/-- The text of a scalar. -/
def text? : Node → Option String
  | .scalar _ _ text => some text
  | _ => none

/-- The path that a scalar writes. -/
def path? (node : Node) : Option Path := (text? node).map Path.ofText

/-- The text of a scalar that may stand for a value of the kind that `kind` tags. -/
def literal? (kind : String) : Node → Option String
  | .scalar .plain _ text => some text
  | .scalar .literal tag text => if tag = some (Node.coreLead ++ kind) then some text else none
  | _ => none

/-- The truth value of a scalar. -/
def bool? (node : Node) : Option Bool :=
  (literal? "bool" node).bind fun text =>
    if ["true", "True", "TRUE"].contains text then some true
    else if ["false", "False", "FALSE"].contains text then some false
    else none

/-- The value of digits in a base up to sixteen. -/
def digitsValue? (base : Nat) (digits : List Char) : Option Nat :=
  if digits.isEmpty then none
  else digits.foldl (fun value digit => value.bind fun before =>
    (Text.hexValue? digit).bind fun next =>
      if next < base then some (before * base + next) else none) (some 0)

/-- Whether a text starts with a zero and goes on with digits. -/
def zeroLed (digits : List Char) : Bool :=
  match digits with
  | '0' :: _ :: _ => digits.all Char.isDigit
  | _ => false

/-- The number that a text behind an optional plus sign writes. -/
def unsigned? (digits : List Char) : Option Nat :=
  match digits with
  | '0' :: 'x' :: rest => digitsValue? 16 rest
  | '0' :: 'o' :: rest => digitsValue? 8 rest
  | '0' :: 'b' :: rest => digitsValue? 2 rest
  | _ => if zeroLed digits then none else digitsValue? 10 digits

/-- The number of a scalar, within 64 bits. -/
def count? (node : Node) : Option Nat :=
  (literal? "int" node).bind fun text =>
    let digits := match text.toList with
      | '+' :: rest => rest
      | others => others
    (unsigned? digits).filter fun value => value < UInt64.size

/-- The ways to write that there is no value. -/
def nullTexts : List String := ["null", "Null", "NULL", "~"]

/-- The path that a scalar writes, or that there is none. -/
def optionalPath? (node : Node) : Option (Option Path) :=
  match node with
  | .scalar style tag text =>
    if tag = some (Node.coreLead ++ "null") then
      if nullTexts.contains text then some none else none
    else if tag.isNone && style == .plain && (text == "" || nullTexts.contains text) then
      some none
    else some (some (.ofText text))
  | _ => none

/-- The texts of scalars, all of them or nothing. -/
def allTexts? : List Node → Option (List String)
  | [] => some []
  | node :: rest =>
    match text? node, allTexts? rest with
    | some text, some others => some (text :: others)
    | _, _ => none

/-- The nodes of a sequence, which may be left empty. -/
def items? : Node → Option (List Node)
  | .sequence items => some items
  | .scalar .plain _ "" => some []
  | _ => none

/-- The texts of a sequence. -/
def texts? (node : Node) : Option (List String) := (items? node).bind allTexts?

/-- Entries whose keys are texts. -/
def keyed? : List (Node × Node) → Option (List (String × Node))
  | [] => some []
  | (key, value) :: rest =>
    match text? key, keyed? rest with
    | some name, some others => some ((name, value) :: others)
    | _, _ => none

/-- The entries of a mapping, which may be left empty. -/
def entries? : Node → Option (List (String × Node))
  | .mapping entries => keyed? entries
  | .scalar .plain _ "" => some []
  | _ => none

/-- Whether no known key comes twice. -/
def keysOnce (known : List String) : List (String × Node) → Bool
  | [] => true
  | (name, _) :: rest =>
    !(known.contains name && rest.any fun other => other.1 == name) && keysOnce known rest

/-- Reads fields one after the other, where a known key may come only once. -/
def fields? {α : Type} (known : List String) (field? : α → String → Node → Option α)
    (start : α) (node : Node) : Option α :=
  match entries? node with
  | none => none
  | some entries =>
    if keysOnce known entries then
      entries.foldl (fun found entry =>
        found.bind fun before => field? before entry.1 entry.2) (some start)
    else none

/-- Reads one field of the store settings. -/
def storeField? (store : StoreSettings) (key : String) (node : Node) : Option StoreSettings :=
  match key with
  | "url" => (text? node).map fun url => { store with url := url }
  | "ref" => (text? node).map fun reference => { store with reference := reference }
  | _ => some store

/-- Reads the store settings. -/
def store? (node : Node) : Option StoreSettings := fields? ["url", "ref"] storeField? {} node

/-- Reads one field of coordinates. -/
def coordinatesField? (project : Coordinates) (key : String) (node : Node) :
    Option Coordinates :=
  match key with
  | "group" => (text? node).map fun group => { project with group := group }
  | "artifact" => (text? node).map fun artifact => { project with artifact := artifact }
  | "version" => (text? node).map fun version => { project with version := version }
  | _ => some project

/-- Reads coordinates. -/
def coordinates? (node : Node) : Option Coordinates :=
  fields? ["group", "artifact", "version"] coordinatesField? {} node

/-- The fields of a dependency before they are known to be complete. -/
structure DependencyDraft where
  group : Option String := none
  artifact : Option String := none
  version : String := ""
  scope : String := Dependency.defaultScope

/-- Reads one field of a dependency. -/
def dependencyField? (draft : DependencyDraft) (key : String) (node : Node) :
    Option DependencyDraft :=
  match key with
  | "group" => (text? node).map fun group => { draft with group := some group }
  | "artifact" => (text? node).map fun artifact => { draft with artifact := some artifact }
  | "version" => (text? node).map fun version => { draft with version := version }
  | "scope" => (text? node).map fun scope => { draft with scope := scope }
  | _ => some draft

/-- Reads a dependency, which has at least a group and an artifact. -/
def dependency? (node : Node) : Option Dependency :=
  match fields? ["group", "artifact", "version", "scope"] dependencyField? {} node with
  | some ⟨some group, some artifact, version, scope⟩ => some ⟨group, artifact, version, scope⟩
  | _ => none

/-- Reads dependencies, all of them or nothing. -/
def allDependencies? : List Node → Option (List Dependency)
  | [] => some []
  | node :: rest =>
    match dependency? node, allDependencies? rest with
    | some dependency, some others => some (dependency :: others)
    | _, _ => none

/-- The keys of a settings file. -/
def keys : List String :=
  ["sources", "target", "protocols", "strict-names", "with-versions", "overwrite", "include",
    "exclude", "max-cycles", "parser", "cargo", "hashes", "objectionary", "project",
    "dependencies"]

/-- Reads one field of the settings; an unknown key is refused. -/
def settingsField? (settings : Settings) (key : String) (node : Node) : Option Settings :=
  match key with
  | "sources" => (path? node).map fun sources => { settings with sources := sources }
  | "target" => (path? node).map fun target => { settings with target := target }
  | "protocols" => (path? node).map fun protocols => { settings with protocols := protocols }
  | "strict-names" => (bool? node).map fun strict => { settings with strictNames := strict }
  | "with-versions" =>
    (bool? node).map fun versions => { settings with withVersions := versions }
  | "overwrite" => (bool? node).map fun overwrite => { settings with overwrite := overwrite }
  | "include" => (texts? node).map fun globs => { settings with included := globs }
  | "exclude" => (texts? node).map fun globs => { settings with excluded := globs }
  | "max-cycles" => (count? node).map fun cycles => { settings with maxCycles := cycles }
  | "parser" => (texts? node).map fun parser => { settings with parser := parser }
  | "cargo" => (text? node).map fun cargo => { settings with cargo := cargo }
  | "hashes" => (optionalPath? node).map fun hashes => { settings with hashes := hashes }
  | "objectionary" => (store? node).map fun store => { settings with store := store }
  | "project" => (coordinates? node).map fun project => { settings with project := project }
  | "dependencies" => ((items? node).bind allDependencies?).map fun dependencies =>
    { settings with dependencies := dependencies }
  | _ => none

/-- Reads settings from a document. -/
def ofNode? (node : Node) : Option Settings := fields? keys settingsField? {} node

/-- Whether a line holds nothing but blanks and a comment. -/
def saysNothing (line : String) : Bool :=
  let rest := Text.trim line
  rest == "" || Text.startsWith "#" rest

/-- The cause of a text that is no settings file. -/
def invalidText : Failure :=
  .configuration "Invalid eo.yaml: not the settings of a project" none

/-- Reads the settings in a text and checks them. -/
def ofText (text : String) : Except Failure Settings :=
  if (Text.lines text).all saysNothing then ({} : Settings).checked
  else
    match (Node.ofText? text).bind ofNode? with
    | some settings => settings.checked
    | none => .error invalidText

/-- The cause of a settings file that can't be read. -/
def unreadable (path : Path) (refusal : Refusal) : Failure :=
  .configuration s!"Can't read configuration '{path.text}': {refusal.message}" none

/-- The name of the current directory. -/
def currentDirectory (disk : Disk) : Path :=
  .ofText ("/" ++ Text.joinAll '/' disk.current)

/-- The directory that the relative paths in a settings file start from. -/
def baseOf (disk : Disk) (path : Path) : Path :=
  match path.parent? with
  | some parent => if parent.isEmpty then currentDirectory disk else parent
  | none => currentDirectory disk

/-- Reads the settings in a file, with relative paths below its directory. -/
def ofFile (disk : Disk) (path : Path) : Except Failure Settings :=
  match disk.readText path with
  | .error refusal => .error (unreadable path refusal)
  | .ok text =>
    match ofText text with
    | .ok settings => .ok (settings.resolvedAgainst (baseOf disk path))
    | .error failure => .error failure

end EoAssembly.Settings
