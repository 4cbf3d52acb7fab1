import EoAssembly.Text.Hex

/-!
Contract: the digest of twenty bytes by which a repository names its objects.

Owns `Sha1.digest`: the message is padded to whole blocks of sixteen words of 32
bits, and every block is mixed into five words in eighty rounds.
-/

namespace EoAssembly.Git.Sha1

/-- The five words of a digest. -/
structure Digest where
  first : UInt32
  second : UInt32
  third : UInt32
  fourth : UInt32
  fifth : UInt32
  deriving DecidableEq

/-- The words that every digest starts from. -/
def start : Digest := ⟨0x67452301, 0xefcdab89, 0x98badcfe, 0x10325476, 0xc3d2e1f0⟩

/-- A word with its bits moved up by `count` places, around its end. -/
def rotated (word count : UInt32) : UInt32 := (word <<< count) ||| (word >>> (32 - count))

/-- The last `count` bytes of a number, most significant first. -/
def bigEndian : Nat → Nat → List UInt8
  | 0, _ => []
  | count + 1, value => bigEndian count (value / 256) ++ [UInt8.ofNat (value % 256)]

/-- A message with a set bit, clear bits up to whole blocks, and its length in bits. -/
def padded (message : List UInt8) : List UInt8 :=
  message ++ 0x80 :: List.replicate ((119 - message.length % 64) % 64) 0
    ++ bigEndian 8 (message.length * 8)

/-- Bytes as words, four at a time. -/
def wordsOf : List UInt8 → List UInt32
  | one :: two :: three :: four :: rest =>
    (one.toUInt32 <<< 24 ||| two.toUInt32 <<< 16 ||| three.toUInt32 <<< 8 ||| four.toUInt32)
      :: wordsOf rest
  | _ => []

/-- More words for a block, the latest first: each comes from four before it. -/
def extended : Nat → List UInt32 → List UInt32
  | 0, words => words
  | count + 1, words =>
    let next := words.getD 2 0 ^^^ words.getD 7 0 ^^^ words.getD 13 0 ^^^ words.getD 15 0
    extended count (rotated next 1 :: words)

/-- How a round mixes three of the words, and the constant it adds. -/
def mixing (round : Nat) (b c d : UInt32) : UInt32 × UInt32 :=
  if round < 20 then ((b &&& c) ||| (~~~b &&& d), 0x5a827999)
  else if round < 40 then (b ^^^ c ^^^ d, 0x6ed9eba1)
  else if round < 60 then ((b &&& c) ||| (b &&& d) ||| (c &&& d), 0x8f1bbcdc)
  else (b ^^^ c ^^^ d, 0xca62c1d6)

/-- One round with a word of the block. -/
def roundStep (state : Digest) (round : Nat) (word : UInt32) : Digest :=
  let (mixed, constant) := mixing round state.second state.third state.fourth
  ⟨rotated state.first 5 + mixed + state.fifth + constant + word, state.first,
    rotated state.second 30, state.third, state.fourth⟩

/-- Rounds with words, from a position on. -/
def rounds (state : Digest) : Nat → List UInt32 → Digest
  | _, [] => state
  | round, word :: rest => rounds (roundStep state round word) (round + 1) rest

/-- Mixes a block into a digest. -/
def absorb (state : Digest) (block : List UInt32) : Digest :=
  let last := rounds state 0 (extended 64 block.reverse).reverse
  ⟨state.first + last.first, state.second + last.second, state.third + last.third,
    state.fourth + last.fourth, state.fifth + last.fifth⟩

/-- Mixes `count` blocks into a digest. -/
def absorbAll : Nat → Digest → List UInt32 → Digest
  | 0, state, _ => state
  | count + 1, state, words => absorbAll count (absorb state (words.take 16)) (words.drop 16)

/-- The twenty bytes of a digest. -/
def bytes (state : Digest) : List UInt8 :=
  [state.first, state.second, state.third, state.fourth, state.fifth].flatMap fun word =>
    bigEndian 4 word.toNat

/-- The digest of a message. -/
def digest (message : List UInt8) : List UInt8 :=
  let words := wordsOf (padded message)
  bytes (absorbAll (words.length / 16) start words)

end EoAssembly.Git.Sha1
