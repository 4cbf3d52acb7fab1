import EoAssembly.Text.Pieces

/-!
Contract: the lines of a text.

A line ends at a line feed, and a carriage return right before that line feed
belongs to the line end.  What follows the last line feed is a line of its own
when it is not empty, and keeps its carriage return.
-/

namespace EoAssembly.Text

/-- A line without the carriage return of its line end. -/
def dropCarriage (line : List Char) : List Char :=
  match line.reverse with
  | '\r' :: rest => rest.reverse
  | _ => line

/-- Lines from the parts between line feeds. -/
def linesOfPieces : List (List Char) → List (List Char)
  | [] => []
  | [last] => if last.isEmpty then [] else [last]
  | line :: others => dropCarriage line :: linesOfPieces others

/-- The lines of a text, without their line ends. -/
def lines (text : String) : List String :=
  (linesOfPieces (pieces (· == '\n') text.toList)).map String.ofList

end EoAssembly.Text
