/-!
Contract: cutting a character list at separators.

Owns:
- `pieces`, the parts between all separators, and `joined`, which puts one
  separator between parts;
- `cut`, the parts before and after the first separator;
- the same operations on `String`.

Does not own: white space or line ends, which have rules of their own in
`Text.Blank` and `Text.Lines`.
-/

namespace EoAssembly.Text

/-- The parts between the characters that satisfy `separates`; never empty. -/
def pieces (separates : Char → Bool) : List Char → List (List Char)
  | [] => [[]]
  | c :: rest =>
    if separates c then
      [] :: pieces separates rest
    else
      match pieces separates rest with
      | [] => [[c]]
      | first :: others => (c :: first) :: others

/-- The parts with `separator` between each two of them. -/
def joined (separator : Char) : List (List Char) → List Char
  | [] => []
  | [part] => part
  | part :: others => part ++ separator :: joined separator others

/-- The parts before and after the first character that satisfies `separates`. -/
def cut (separates : Char → Bool) : List Char → Option (List Char × List Char)
  | [] => none
  | c :: rest =>
    if separates c then
      some ([], rest)
    else
      (cut separates rest).map fun parts => (c :: parts.1, parts.2)

/-- The rest of a list behind a leading `lead`, when it starts so. -/
def behind? : List Char → List Char → Option (List Char)
  | [], text => some text
  | _ :: _, [] => none
  | l :: lead, c :: text => if l = c then behind? lead text else none

/-- The part of a list before a closing `tail`, when it ends so. -/
def ahead? (tail text : List Char) : Option (List Char) :=
  (behind? tail.reverse text.reverse).map List.reverse

/-- Whether `part` occurs in a list without gaps. -/
def occurs (part : List Char) : List Char → Bool
  | [] => part.isEmpty
  | c :: rest => part.isPrefixOf (c :: rest) || occurs part rest

/-- The parts of a text between all occurrences of `separator`. -/
def splitAll (separator : Char) (text : String) : List String :=
  (pieces (· == separator) text.toList).map String.ofList

/-- The texts with `separator` between each two of them. -/
def joinAll (separator : Char) (parts : List String) : String :=
  String.ofList (joined separator (parts.map String.toList))

/-- The texts before and after the first `separator`. -/
def splitFirst (separator : Char) (text : String) : Option (String × String) :=
  (cut (· == separator) text.toList).map fun parts =>
    (String.ofList parts.1, String.ofList parts.2)

/-- The rest of a text behind `lead`. -/
def dropLead? (lead text : String) : Option String :=
  (behind? lead.toList text.toList).map String.ofList

/-- The part of a text before `tail`. -/
def dropTail? (tail text : String) : Option String :=
  (ahead? tail.toList text.toList).map String.ofList

/-- Whether a text starts with `lead`. -/
def startsWith (lead text : String) : Bool :=
  lead.toList.isPrefixOf text.toList

/-- Whether a text ends with `tail`. -/
def endsWith (tail text : String) : Bool :=
  tail.toList.isSuffixOf text.toList

/-- Whether a text holds the character `c`. -/
def holds (c : Char) (text : String) : Bool :=
  text.toList.contains c

/-- Whether a text holds `part`. -/
def mentions (part text : String) : Bool :=
  occurs part.toList text.toList

/-- There is at least one piece. -/
theorem pieces_ne_nil (separates : Char → Bool) (text : List Char) :
    pieces separates text ≠ [] := by
  cases text with
  | nil => simp [pieces]
  | cons c rest =>
    simp only [pieces]
    split
    · simp
    · split <;> simp

/-- Joining the pieces between one character gives back the text. -/
theorem joined_pieces (separator : Char) (text : List Char) :
    joined separator (pieces (· == separator) text) = text := by
  induction text with
  | nil => rfl
  | cons c rest ih =>
    simp only [pieces]
    cases parts : pieces (· == separator) rest with
    | nil => exact absurd parts (pieces_ne_nil _ _)
    | cons first others =>
      rw [parts] at ih
      by_cases found : (c == separator) = true
      · simp only [found, if_true, joined, List.nil_append]
        rw [ih, eq_of_beq found]
      · simp only [found]
        cases others with
        | nil => simpa [joined] using ih
        | cons second more => simpa [joined] using ih

end EoAssembly.Text
