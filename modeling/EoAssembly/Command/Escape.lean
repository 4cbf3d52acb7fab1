import EoAssembly.Command.Program

/-!
Contract: what a backslash and the characters behind it stand for.

Up to three octal digits name a byte, and some letters name a control character;
a backslash before any other character is kept.

Owns `escape`, which reads one escape.
-/

namespace EoAssembly.Command

/-- The value of an octal digit. -/
def octalValue? (c : Char) : Option Nat :=
  if '0' ≤ c ∧ c ≤ '7' then some (c.toNat - 48) else none

/-- The value of up to `count` octal digits, and what follows them. -/
def octal : Nat → Nat → List Char → Nat × List Char
  | 0, value, text => (value, text)
  | _ + 1, value, [] => (value, [])
  | count + 1, value, c :: rest =>
    match octalValue? c with
    | some digit => octal count (value * 8 + digit) rest
    | none => (value, c :: rest)

/-- The byte that an escape of one letter stands for. -/
def escapedByte? (c : Char) : Option UInt8 :=
  match c with
  | 'n' => some 10
  | 't' => some 9
  | 'r' => some 13
  | 'a' => some 7
  | 'b' => some 8
  | 'f' => some 12
  | 'v' => some 11
  | '\\' => some 92
  | '\x22' => some 34
  | '\x27' => some 39
  | _ => none

/-- The bytes of one character. -/
def charBytes (c : Char) : List UInt8 := bytesOf (String.ofList [c])

/-- The bytes that the text behind a backslash starts with, and what follows it. -/
def escape (c : Char) (rest : List Char) : List UInt8 × List Char :=
  match octalValue? c with
  | some _ =>
    let (value, behind) := octal 3 0 (c :: rest)
    ([UInt8.ofNat value], behind)
  | none =>
    match escapedByte? c with
    | some byte => ([byte], rest)
    | none => (92 :: charBytes c, rest)

end EoAssembly.Command
