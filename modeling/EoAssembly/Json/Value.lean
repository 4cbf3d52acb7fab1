/-!
Contract: JSON values as they are read and written.

Owns:
- `Value`, with numbers as their literals and objects as their members in order;
- the views of a value that typed readers use.

A string whose escapes name half a surrogate pair is `illFormed`: it may stand
where its text does not matter and is refused everywhere else.
-/

namespace EoAssembly.Json

/-- A JSON value. -/
inductive Value where
  | null
  | bool (value : Bool)
  | number (literal : String)
  | string (text : String)
  | illFormed
  | array (items : List Value)
  | object (members : List (String × Value))

namespace Value

/-- The text of a string. -/
def text? : Value → Option String
  | .string text => some text
  | _ => none

/-- The text of a string, or nothing for `null`. -/
def optionalText? : Value → Option (Option String)
  | .null => some none
  | .string text => some (some text)
  | _ => none

/-- A truth value. -/
def bool? : Value → Option Bool
  | .bool value => some value
  | _ => none

/-- The value of decimal digits. -/
def decimal (digits : List Char) : Nat :=
  digits.foldl (fun value digit => value * 10 + (digit.toNat - 48)) 0

/-- The number of a literal made of digits only, within 64 bits. -/
def natural? (literal : String) : Option Nat :=
  if literal.toList.all Char.isDigit ∧ decimal literal.toList < UInt64.size then
    some (decimal literal.toList)
  else
    none

/-- A natural number within 64 bits, or nothing for `null`. -/
def optionalNat? : Value → Option (Option Nat)
  | .null => some none
  | .number literal => (natural? literal).map some
  | _ => none

end Value

end EoAssembly.Json
