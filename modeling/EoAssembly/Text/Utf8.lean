/-!
Contract: text from bytes.

Owns the strict reading of bytes as UTF-8, which refuses anything else, and the
lenient one, which puts one replacement character for each longest run of bytes
that starts a character but does not finish it.
-/

namespace EoAssembly.Text

/-- The text of bytes that are UTF-8. -/
def ofUtf8? (bytes : List UInt8) : Option String :=
  String.fromUTF8? ⟨bytes.toArray⟩

/-- What stands for bytes that are no character. -/
def replacement : Char := Char.ofNat 0xFFFD

/-- Whether a byte lies between two others, both included. -/
def between (low high byte : UInt8) : Bool := low ≤ byte && byte ≤ high

/-- The value of the last six bits of a byte. -/
def low6 (byte : UInt8) : Nat := byte.toNat % 64

/-- The bytes allowed second behind the first byte of a long character. -/
def secondAllowed (first second : UInt8) : Bool :=
  if first = 0xE0 then between 0xA0 0xBF second
  else if first = 0xED then between 0x80 0x9F second
  else if first = 0xF0 then between 0x90 0xBF second
  else if first = 0xF4 then between 0x80 0x8F second
  else between 0x80 0xBF second

/-- The characters of bytes, read leniently. -/
def lenientChars : List UInt8 → List Char
  | [] => []
  | first :: rest =>
    if first < 0x80 then Char.ofNat first.toNat :: lenientChars rest
    else if between 0xC2 0xDF first then
      match rest with
      | second :: rest₂ =>
        if between 0x80 0xBF second then
          Char.ofNat (first.toNat % 32 * 64 + low6 second) :: lenientChars rest₂
        else replacement :: lenientChars (second :: rest₂)
      | [] => [replacement]
    else if between 0xE0 0xEF first then
      match rest with
      | second :: third :: rest₃ =>
        if !secondAllowed first second then replacement :: lenientChars (second :: third :: rest₃)
        else if between 0x80 0xBF third then
          Char.ofNat (first.toNat % 16 * 4096 + low6 second * 64 + low6 third)
            :: lenientChars rest₃
        else replacement :: lenientChars (third :: rest₃)
      | [second] =>
        if secondAllowed first second then [replacement]
        else replacement :: lenientChars [second]
      | [] => [replacement]
    else if between 0xF0 0xF4 first then
      match rest with
      | second :: third :: fourth :: rest₄ =>
        if !secondAllowed first second then
          replacement :: lenientChars (second :: third :: fourth :: rest₄)
        else if !between 0x80 0xBF third then
          replacement :: lenientChars (third :: fourth :: rest₄)
        else if between 0x80 0xBF fourth then
          Char.ofNat (first.toNat % 8 * 262144 + low6 second * 4096 + low6 third * 64
            + low6 fourth) :: lenientChars rest₄
        else replacement :: lenientChars (fourth :: rest₄)
      | [second, third] =>
        if !secondAllowed first second then replacement :: lenientChars [second, third]
        else if between 0x80 0xBF third then [replacement]
        else replacement :: lenientChars [third]
      | [second] =>
        if secondAllowed first second then [replacement]
        else replacement :: lenientChars [second]
      | [] => [replacement]
    else replacement :: lenientChars rest

/-- The text of bytes, read leniently. -/
def ofBytesLenient (bytes : List UInt8) : String :=
  String.ofList (lenientChars bytes)

end EoAssembly.Text
