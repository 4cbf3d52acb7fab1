import EoAssembly.Failure

/-!
Contract: replies of native functions as bytes.

A reply has nine bytes: a tag, 1 for a float or 2 for an integer, and the
64 bits of the value, most significant byte first.  Floats are held as their
bit pattern, so no payload is lost.

Owns `Reply.encode` and `Reply.decode`.
-/

namespace EoAssembly

/-- A decoded reply. -/
inductive Reply where
  | float (bits : UInt64)
  | int (value : Int64)
  deriving DecidableEq

namespace Reply

/-- The last `count` bytes of a number, most significant first. -/
def bytesOf : Nat → Nat → List UInt8
  | 0, _ => []
  | count + 1, value => bytesOf count (value / 256) ++ [UInt8.ofNat (value % 256)]

/-- The number written by bytes, most significant first. -/
def numberOf (bytes : List UInt8) : Nat :=
  bytes.foldl (fun value byte => value * 256 + byte.toNat) 0

/-- The bytes of a reply. -/
def encode : Reply → List UInt8
  | .float bits => 1 :: bytesOf 8 bits.toNat
  | .int value => 2 :: bytesOf 8 value.toUInt64.toNat

/-- The 64 bits behind a tag, when there are eight bytes. -/
def word? (content : List UInt8) : Option UInt64 :=
  if content.length = 8 then some (UInt64.ofNat (numberOf content)) else none

/-- Reads the reply that the function at `locator` gave. -/
def decode (locator : String) : List UInt8 → Except Failure Reply
  | [] => .error (.nativeReply locator "empty reply")
  | tag :: content =>
    if tag = 0 then
      .error (.nativeReply locator "returning an object is not supported")
    else if tag = 1 then
      match word? content with
      | some word => .ok (.float word)
      | none => .error (.nativeReply locator "a float must take 8 bytes")
    else if tag = 2 then
      match word? content with
      | some word => .ok (.int word.toInt64)
      | none => .error (.nativeReply locator "an integer must take 8 bytes")
    else
      .error (.nativeReply locator "returning strings and raw bytes is not supported")

end Reply

end EoAssembly
