import EoAssembly.Json.Value
import EoAssembly.Text.Hex

/-!
Contract: the written form of JSON values.

Members and items stand on lines of their own, indented by two spaces a level;
an empty array or object stays on one line.  Strings escape quotes, backslashes
and the control characters below the space, and keep every other character.
-/

namespace EoAssembly.Json

/-- The written form of one character of a string. -/
def escape (c : Char) : List Char :=
  if c = '\x22' then ['\\', '\x22']
  else if c = '\\' then ['\\', '\\']
  else if c = '\n' then ['\\', 'n']
  else if c = '\t' then ['\\', 't']
  else if c = '\r' then ['\\', 'r']
  else if c = Char.ofNat 8 then ['\\', 'b']
  else if c = Char.ofNat 12 then ['\\', 'f']
  else if c.toNat < 32 then '\\' :: 'u' :: Text.hexDigits 4 c.toNat
  else [c]

/-- A string between quotes. -/
def quoted (text : String) : List Char :=
  '\x22' :: text.toList.flatMap escape ++ ['\x22']

/-- A line end and the indentation of a level. -/
def newLine (level : Nat) : List Char :=
  '\n' :: List.replicate (2 * level) ' '

mutual

/-- The written form of a value whose lines are indented by `level`. -/
def written (level : Nat) : Value → List Char
  | .null => ['n', 'u', 'l', 'l']
  | .bool true => ['t', 'r', 'u', 'e']
  | .bool false => ['f', 'a', 'l', 's', 'e']
  | .number literal => literal.toList
  | .string text => quoted text
  | .illFormed => ['n', 'u', 'l', 'l']
  | .array [] => ['[', ']']
  | .array (first :: others) =>
    '[' :: newLine (level + 1) ++ written (level + 1) first ++ writtenItems (level + 1) others
      ++ newLine level ++ [']']
  | .object [] => ['\x7b', '\x7d']
  | .object ((key, value) :: others) =>
    '\x7b' :: newLine (level + 1) ++ quoted key ++ [':', ' '] ++ written (level + 1) value
      ++ writtenMembers (level + 1) others ++ newLine level ++ ['\x7d']

/-- The items behind the first one. -/
def writtenItems (level : Nat) : List Value → List Char
  | [] => []
  | value :: others => ',' :: newLine level ++ written level value ++ writtenItems level others

/-- The members behind the first one. -/
def writtenMembers (level : Nat) : List (String × Value) → List Char
  | [] => []
  | (key, value) :: others =>
    ',' :: newLine level ++ quoted key ++ [':', ' '] ++ written level value
      ++ writtenMembers level others

end

/-- The written form of a whole value. -/
def Value.render (value : Value) : String :=
  String.ofList (written 0 value)

end EoAssembly.Json
