/-!
Contract: how the command line decorates what it prints.

Owns:
- `Environment`, the variables of a process;
- `useColor`, where the flag wins over the environment;
- `done` and `field`, a finished step and a labelled value, in ANSI styles when
  colors are on.
-/

namespace EoAssembly

/-- The variables of a process. -/
abbrev Environment := List (String × String)

namespace Terminal

/-- A text with the letters of ASCII in lower case. -/
def lowercase (text : String) : String :=
  String.ofList (text.toList.map Char.toLower)

/-- Whether the environment asks for colors; without a wish, `capable` decides. -/
def environmentColor (environment : Environment) (capable : Bool) : Bool :=
  if (environment.lookup "NO_COLOR").isSome then false
  else if environment.lookup "CLICOLOR" = some "0" then false
  else if (environment.lookup "CLICOLOR_FORCE").any fun value => value != "0" && value != "" then
    true
  else if environment.lookup "TERM" = some "dumb" then false
  else capable

/-- Whether to use colors; `always` and `never` win over the environment. -/
def useColor (flag : String) (environment : Environment) (capable : Bool) : Bool :=
  if lowercase flag = "always" then true
  else if lowercase flag = "never" then false
  else environmentColor environment capable

/-- The mark that starts a style code. -/
def escapeMark : Char := Char.ofNat 27

/-- The code that turns a style on. -/
def styleCode (number : Nat) : String :=
  String.ofList [escapeMark] ++ s!"[{number}m"

/-- A text in styles, which end behind it. -/
def styled (color : Bool) (numbers : List Nat) (text : String) : String :=
  if color then String.join (numbers.map styleCode) ++ text ++ styleCode 0 else text

/-- A text with blanks behind it up to a width. -/
def padded (width : Nat) (text : String) : String :=
  text ++ String.ofList (List.replicate (width - text.length) ' ')

/-- A line for a finished step. -/
def done (color : Bool) (message : String) : String :=
  styled color [32, 1] "✓" ++ " " ++ message

/-- A label and its value. -/
def field (color : Bool) (label value : String) : String :=
  styled color [1] (padded 12 label) ++ " " ++ styled color [2] value

end Terminal

end EoAssembly
