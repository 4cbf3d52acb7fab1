import EoAssembly.Text.Hex

/-!
Contract: a short word that stands for a text.

Owns the 64-bit SipHash of a text's bytes with one round for each word, three at
the end, and a key of zeros, and its hexadecimal form without leading zeros.  A
byte that no text holds is put behind the bytes of the text.  Equal texts have
equal fingerprints; the other direction is likely but not certain.
-/

namespace EoAssembly.Text

/-- The four words that bytes are mixed into. -/
structure SipState where
  first : UInt64
  second : UInt64
  third : UInt64
  fourth : UInt64
  deriving DecidableEq

namespace SipState

/-- The words before any byte. -/
def start : SipState :=
  ⟨0x736f6d6570736575, 0x646f72616e646f6d, 0x6c7967656e657261, 0x7465646279746573⟩

/-- A word with its bits moved up by `count` places, around its end. -/
def rotated (word count : UInt64) : UInt64 := (word <<< count) ||| (word >>> (64 - count))

/-- One round over the four words. -/
def round (state : SipState) : SipState :=
  let sum := state.first + state.second
  let mixed := rotated state.second 13 ^^^ sum
  let total := state.third + state.fourth
  let crossed := rotated state.fourth 16 ^^^ total
  let upper := rotated sum 32 + crossed
  let lower := total + mixed
  ⟨upper, rotated mixed 17 ^^^ lower, rotated lower 32, rotated crossed 21 ^^^ upper⟩

/-- The words with one word of bytes mixed in. -/
def absorb (state : SipState) (word : UInt64) : SipState :=
  let mixed := ({ state with fourth := state.fourth ^^^ word }).round
  { mixed with first := mixed.first ^^^ word }

/-- The fingerprint that the words stand for at the end. -/
def finish (state : SipState) : UInt64 :=
  let last := ({ state with third := state.third ^^^ 0xff }).round.round.round
  last.first ^^^ last.second ^^^ last.third ^^^ last.fourth

end SipState

/-- Bytes as one word, the least significant first. -/
def littleEndian (bytes : List UInt8) : UInt64 :=
  bytes.foldr (fun byte word => (word <<< 8) ||| byte.toUInt64) 0

/-- Mixes bytes in, a word at a time; the last word also holds the length. -/
def absorbBytes (length : Nat) : SipState → List UInt8 → SipState
  | state, a :: b :: c :: d :: e :: f :: g :: h :: rest =>
    absorbBytes length (state.absorb (littleEndian [a, b, c, d, e, f, g, h])) rest
  | state, rest => state.absorb (littleEndian rest ||| (UInt64.ofNat length <<< 56))

/-- The fingerprint of bytes. -/
def fingerprintBytes (bytes : List UInt8) : UInt64 :=
  (absorbBytes bytes.length .start bytes).finish

/-- The fingerprint of a text. -/
def fingerprint (text : String) : UInt64 :=
  fingerprintBytes (text.toUTF8.toList ++ [0xff])

/-- The hexadecimal digits of a word without leading zeros. -/
def shortHexWord (word : UInt64) : String :=
  let digits := (hexDigits 16 word.toNat).dropWhile (· == '0')
  if digits.isEmpty then "0" else String.ofList digits

/-- The fingerprint of a text as hexadecimal digits. -/
def fingerprintText (text : String) : String :=
  shortHexWord (fingerprint text)

end EoAssembly.Text
