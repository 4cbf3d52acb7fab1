import EoAssembly.Text.Pieces

/-!
Contract: the shape of a semantic version.

A version has three numbers, then optionally identifiers behind a hyphen, then
optionally identifiers behind a plus sign.  Numbers fit into 64 bits and have no
leading zeros, and neither have the numeric identifiers behind the hyphen.

Owns `Version.wellFormed`.
-/

namespace EoAssembly.Version

/-- Whether a text is a number without leading zeros. -/
def isNumber (text : List Char) : Bool :=
  !text.isEmpty && text.all Char.isDigit && (text.length == 1 || text.head? != some '0')

/-- The value of decimal digits. -/
def valueOf (digits : List Char) : Nat :=
  digits.foldl (fun value digit => value * 10 + (digit.toNat - 48)) 0

/-- Whether a text is a number within 64 bits. -/
def isWord (text : List Char) : Bool := isNumber text && valueOf text < UInt64.size

/-- Whether a text is an identifier. -/
def isIdentifier (text : List Char) : Bool :=
  !text.isEmpty && text.all fun c => c.isAlphanum || c == '-'

/-- Whether a text is an identifier of a release candidate. -/
def isCandidate (text : List Char) : Bool :=
  isIdentifier text && (!text.all Char.isDigit || isNumber text)

/-- Whether all parts between dots satisfy a test. -/
def allParts (test : List Char → Bool) (text : List Char) : Bool :=
  (Text.pieces (· == '.') text).all test

/-- Whether a text is a release with an optional candidate. -/
def isRelease (text : List Char) : Bool :=
  match Text.cut (· == '-') text with
  | some (numbers, candidate) =>
    (Text.pieces (· == '.') numbers).length == 3 && allParts isWord numbers
      && allParts isCandidate candidate
  | none => (Text.pieces (· == '.') text).length == 3 && allParts isWord text

/-- Whether a text is a version. -/
def wellFormed (text : String) : Bool :=
  match Text.cut (· == '+') text.toList with
  | some (release, build) => isRelease release && allParts isIdentifier build
  | none => isRelease text.toList

end EoAssembly.Version
