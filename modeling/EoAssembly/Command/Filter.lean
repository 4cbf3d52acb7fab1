import EoAssembly.Command.Escape
import EoAssembly.Text.Pieces

/-!
Contract: the small programs that turn their input into their output.

Owns:
- taking the start of an input, counting it, and turning its lines around;
- replacing or dropping single bytes, and replacing one literal part of a line;
- `filter?`, which finds one of these programs by its name and arguments.
-/

namespace EoAssembly.Command

/-- The lines of bytes, each with its line end; the last may have none. -/
def byteLines : List UInt8 → List (List UInt8)
  | [] => []
  | byte :: rest =>
    if byte = 10 then [byte] :: byteLines rest
    else match byteLines rest with
      | [] => [[byte]]
      | line :: others => (byte :: line) :: others

/-- A change of the bytes of a line before its line end. -/
def withinLine (change : List UInt8 → List UInt8) (line : List UInt8) : List UInt8 :=
  change (line.takeWhile (· != 10)) ++ line.dropWhile (· != 10)

/-- The bytes of a set, without ranges, in at most `fuel` steps. -/
def unescaped : Nat → List Char → List UInt8
  | 0, _ => []
  | _, [] => []
  | fuel + 1, '\\' :: c :: rest =>
    let (bytes, behind) := escape c rest
    bytes ++ unescaped fuel behind
  | fuel + 1, c :: rest => charBytes c ++ unescaped fuel rest

/-- The bytes that ranges such as `a-z` stand for. -/
def withRanges : List UInt8 → List UInt8
  | low :: 45 :: high :: rest =>
    ((List.range' low.toNat (high.toNat + 1 - low.toNat)).map UInt8.ofNat) ++ withRanges rest
  | byte :: rest => byte :: withRanges rest
  | [] => []

/-- The bytes that the text of a set stands for. -/
def setBytes (text : String) : List UInt8 :=
  withRanges (unescaped (text.length + 1) text.toList)

/-- A byte replaced by the one at its place in another set, whose last one stands
for all that follow. -/
def exchanged (wanted given : List UInt8) (byte : UInt8) : UInt8 :=
  match wanted.findIdx? (· == byte) with
  | some place => given.getD place (given.getLastD byte)
  | none => byte

/-- A list with the first occurrence of `part`, or all of them, replaced. -/
def replaced (all : Bool) (part other : List UInt8) : Nat → List UInt8 → List UInt8
  | 0, text => text
  | _, [] => []
  | fuel + 1, byte :: rest =>
    if part.isPrefixOf (byte :: rest) && !part.isEmpty then
      let behind := (byte :: rest).drop part.length
      other ++ if all then replaced all part other fuel behind else behind
    else byte :: replaced all part other fuel rest

/-- The part to replace, the replacement, and whether all occurrences are meant, of an
instruction without special characters. -/
def substitution? (text : String) : Option (List UInt8 × List UInt8 × Bool) :=
  match text.toList with
  | 's' :: mark :: rest =>
    match (Text.pieces (· == mark) rest).map String.ofList with
    | [part, other, flags] =>
      if part.toList.any fun c => ".*[]^$\\".toList.contains c then none
      else if other.toList.any fun c => "\\&".toList.contains c then none
      else if flags = "" ∨ flags = "g" then some (bytesOf part, bytesOf other, flags == "g")
      else none
    | _ => none
  | _ => none

/-- The number in a text, or ten. -/
def countOf (text : String) : Nat := text.toNat?.getD 10

/-- The words of a line of numbers. -/
def countLine (count : Nat) : List UInt8 := bytesOf s!"{count}\n"

/-- The number of words between blanks. -/
def wordCount (input : List UInt8) : Nat :=
  ((input.splitBy fun left right => (left ≤ 32) == (right ≤ 32)).filter
    fun part => part.any fun byte => decide (32 < byte)).length

/-- The output of a program for an input, if the program turns inputs into outputs. -/
def filter? (program : String) (arguments : List String) :
    Option (List UInt8 → List UInt8) :=
  match program, arguments with
  | "cat", [] => some id
  | "cat", ["-"] => some id
  | "tee", [] => some id
  | "head", [] => some fun input => ((byteLines input).take 10).flatten
  | "head", ["-c", count] => some fun input => input.take (countOf count)
  | "head", ["-n", count] => some fun input => ((byteLines input).take (countOf count)).flatten
  | "tail", ["-c", count] => some fun input => input.drop (input.length - countOf count)
  | "tail", ["-n", count] => some fun input =>
    let lines := byteLines input
    (lines.drop (lines.length - countOf count)).flatten
  | "head", [option] => headOption? option
  | "wc", ["-c"] => some fun input => countLine input.length
  | "wc", ["-l"] => some fun input => countLine (input.count 10)
  | "wc", ["-w"] => some fun input => countLine (wordCount input)
  | "rev", [] => some fun input => ((byteLines input).map (withinLine List.reverse)).flatten
  | "tac", [] => some fun input => (byteLines input).reverse.flatten
  | "sort", [] => some fun input =>
    ((byteLines (if input.getLastD 10 = 10 then input else input ++ [10])).mergeSort
      fun left right => decide (left ≤ right)).flatten
  | "tr", ["-d", set] => some fun input => input.filter fun byte => !(setBytes set).contains byte
  | "tr", [wanted, given] => some fun input => input.map (exchanged (setBytes wanted)
      (setBytes given))
  | "sed", [instruction] => (substitution? instruction).map fun (part, other, all) input =>
    ((byteLines input).map (withinLine fun line =>
      replaced all part other (line.length + 1) line)).flatten
  | _, _ => none
where
  /-- What `head` does for a count written together with its hyphen. -/
  headOption? (option : String) : Option (List UInt8 → List UInt8) :=
    match option.toList with
    | '-' :: 'c' :: count => some fun input => input.take (countOf (String.ofList count))
    | '-' :: 'n' :: count => some fun input =>
      ((byteLines input).take (countOf (String.ofList count))).flatten
    | '-' :: count => some fun input =>
      ((byteLines input).take (countOf (String.ofList count))).flatten
    | _ => none

end EoAssembly.Command
