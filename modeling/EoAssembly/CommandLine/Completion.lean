import EoAssembly.CommandLine.Action

/-!
Contract: scripts that let a shell complete the names of commands.

Owns `completionScript`, one script per shell.
-/

namespace EoAssembly.CommandLine

/-- The name of the program. -/
def programName : String := "eo-build"

/-- The names of the commands with blanks between. -/
def commandWords : String := Text.joinAll ' ' commandNames

/-- The script for a shell. -/
def completionScript : ShellKind → String
  | .bash => s!"complete -W '{commandWords}' {programName}\n"
  | .zsh => s!"#compdef {programName}\n_arguments '1: :({commandWords})'\n"
  | .fish => s!"complete -c {programName} -f -a '{commandWords}'\n"
  | .powershell =>
    s!"Register-ArgumentCompleter -Native -CommandName '{programName}' -ScriptBlock "
      ++ "\x7b -split '" ++ commandWords ++ "' \x7d\n"
  | .elvish =>
    s!"set edit:completion:arg-completer[{programName}] = "
      ++ "\x7b|@words| put " ++ commandWords ++ " \x7d\n"

end EoAssembly.CommandLine
