import EoAssembly.Text.Pieces

/-!
Contract: blank characters and the texts between them.

Owns:
- `isBlank`, the Unicode property `White_Space`;
- `trim`, which drops blanks at both ends, and `words`, the runs of others.
-/

namespace EoAssembly.Text

/-- The characters with the Unicode property `White_Space`. -/
def isBlank (c : Char) : Bool :=
  let code := c.toNat
  (9 ≤ code && code ≤ 13) || code == 0x20 || code == 0x85 || code == 0xA0 || code == 0x1680
    || (0x2000 ≤ code && code ≤ 0x200A) || code == 0x2028 || code == 0x2029
    || code == 0x202F || code == 0x205F || code == 0x3000

/-- A list without the blanks at its start. -/
def trimLeft (text : List Char) : List Char :=
  text.dropWhile isBlank

/-- A list without the blanks at its end. -/
def trimRight (text : List Char) : List Char :=
  (text.reverse.dropWhile isBlank).reverse

/-- A text without the blanks at its ends. -/
def trim (text : String) : String :=
  String.ofList (trimRight (trimLeft text.toList))

/-- A text without the blanks at its end. -/
def trimEnd (text : String) : String :=
  String.ofList (trimRight text.toList)

/-- The runs of characters that are not blank. -/
def words (text : String) : List String :=
  ((pieces isBlank text.toList).filter fun word => !word.isEmpty).map String.ofList

/-- Whether a text holds blanks only. -/
def allBlank (text : String) : Bool :=
  text.toList.all isBlank

end EoAssembly.Text
