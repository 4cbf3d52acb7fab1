import EoAssembly.Json.Token
import EoAssembly.Json.Value

/-!
Contract: from the tokens of a JSON text to its value.

The reader descends along the grammar; each call spends one unit of fuel, and
three per token are enough for every sequence of tokens.
-/

namespace EoAssembly.Json

mutual

/-- A value at the start of tokens, and what follows it. -/
def valueFrom : Nat → List Token → Option (Value × List Token)
  | 0, _ => none
  | _, [] => none
  | fuel + 1, token :: rest =>
    match token with
    | .null => some (.null, rest)
    | .bool value => some (.bool value, rest)
    | .number literal => some (.number literal, rest)
    | .string (some text) => some (.string text, rest)
    | .string none => some (.illFormed, rest)
    | .openArray =>
      match rest with
      | .closeArray :: behind => some (.array [], behind)
      | _ => (itemsFrom fuel rest).map fun found => (.array found.1, found.2)
    | .openObject =>
      match rest with
      | .closeObject :: behind => some (.object [], behind)
      | _ => (membersFrom fuel rest).map fun found => (.object found.1, found.2)
    | _ => none

/-- One or more items up to the end of their array. -/
def itemsFrom : Nat → List Token → Option (List Value × List Token)
  | 0, _ => none
  | fuel + 1, tokens =>
    match valueFrom fuel tokens with
    | some (value, .comma :: rest) =>
      (itemsFrom fuel rest).map fun found => (value :: found.1, found.2)
    | some (value, .closeArray :: rest) => some ([value], rest)
    | _ => none

/-- One or more members up to the end of their object. -/
def membersFrom : Nat → List Token → Option (List (String × Value) × List Token)
  | 0, _ => none
  | fuel + 1, .string (some key) :: .colon :: tokens =>
    match valueFrom fuel tokens with
    | some (value, .comma :: rest) =>
      (membersFrom fuel rest).map fun found => ((key, value) :: found.1, found.2)
    | some (value, .closeObject :: rest) => some ([(key, value)], rest)
    | _ => none
  | _, _ => none

end

/-- The value of a whole text. -/
def Value.ofText? (text : String) : Option Value :=
  match tokens text with
  | none => none
  | some found =>
    match valueFrom (3 * found.length + 1) found with
    | some (value, []) => some value
    | _ => none

end EoAssembly.Json
