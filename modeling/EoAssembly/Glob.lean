/-!
Contract: patterns of file paths.

A question mark stands for one character, a star for any run of characters, and
brackets for one character of a set, or outside of it behind an exclamation
mark.  All of these stand for slashes and leading dots too.  Two stars stand for
any number of whole components, and only between slashes or ends.

Owns `Glob`, its reader and `Glob.accepts`.
-/

namespace EoAssembly

/-- One character, or the characters from one to another. -/
structure CharRange where
  first : Char
  last : Char
  deriving DecidableEq

/-- A part of a pattern. -/
inductive GlobPart where
  | literal (c : Char)
  | anyChar
  | anyRun
  | anyComponents
  | oneOf (ranges : List CharRange)
  | noneOf (ranges : List CharRange)
  deriving DecidableEq

/-- A pattern. -/
structure Glob where
  parts : List GlobPart
  deriving DecidableEq

namespace Glob

/-- The ranges between brackets; a hyphen between two characters makes a range. -/
def rangesOf : List Char → List CharRange
  | first :: '-' :: last :: rest => ⟨first, last⟩ :: rangesOf rest
  | c :: rest => ⟨c, c⟩ :: rangesOf rest
  | [] => []

/-- The set behind an opening bracket, which holds at least one character, and
what follows its closing bracket. -/
def setFrom? (text : List Char) : Option (List Char × List Char) :=
  match text with
  | [] => none
  | first :: rest =>
    match rest.span (· != ']') with
    | (others, _ :: behind) => some (first :: others, behind)
    | _ => none

/-- Parts with whole components in front, unless they stand there already behind
another part. -/
def addComponents (before : List GlobPart) : List GlobPart :=
  match before with
  | .anyComponents :: _ :: _ => before
  | _ => .anyComponents :: before

/-- The parts of a pattern, in at most `fuel` steps.  `before` holds the parts so
far, last part first, and `atStart` tells that a component starts here. -/
def partsFrom : Nat → Bool → List GlobPart → List Char → Option (List GlobPart)
  | _, _, before, [] => some before.reverse
  | 0, _, _, _ => none
  | _, _, _, '*' :: '*' :: '*' :: _ => none
  | fuel + 1, atStart, before, '*' :: '*' :: rest =>
    if atStart then
      match rest with
      | [] => some (addComponents before).reverse
      | '/' :: behind => partsFrom fuel true (addComponents before) behind
      | _ => none
    else none
  | fuel + 1, _, before, '*' :: rest => partsFrom fuel false (.anyRun :: before) rest
  | fuel + 1, _, before, '?' :: rest => partsFrom fuel false (.anyChar :: before) rest
  | fuel + 1, _, before, '[' :: '!' :: rest =>
    match setFrom? rest with
    | some (inner, behind) => partsFrom fuel false (.noneOf (rangesOf inner) :: before) behind
    | none => none
  | fuel + 1, _, before, '[' :: rest =>
    match setFrom? rest with
    | some (inner, behind) => partsFrom fuel false (.oneOf (rangesOf inner) :: before) behind
    | none => none
  | fuel + 1, _, before, c :: rest => partsFrom fuel (c == '/') (.literal c :: before) rest

/-- Reads a pattern; every step takes a character, so the bound is enough. -/
def ofText? (text : String) : Option Glob :=
  (partsFrom text.toList.length true [] text.toList).map Glob.mk

/-- Whether a character is in one of the ranges. -/
def inRanges (ranges : List CharRange) (c : Char) : Bool :=
  ranges.any fun range => range.first ≤ c && c ≤ range.last

/-- Whether a part that stands for one character stands for `c`. -/
def partAccepts (part : GlobPart) (c : Char) : Bool :=
  match part with
  | .literal own => own == c
  | .anyChar => true
  | .oneOf ranges => inRanges ranges c
  | .noneOf ranges => !inRanges ranges c
  | _ => false

/-- Whether `accept` takes a text behind any number of characters. -/
def someSuffix (accept : List Char → Bool) : List Char → Bool
  | [] => accept []
  | c :: rest => accept (c :: rest) || someSuffix accept rest

/-- Whether `accept` takes a text behind one of its slashes, or behind its end. -/
def someComponent (accept : List Char → Bool) : List Char → Bool
  | [] => accept []
  | c :: rest => (c == '/' && accept rest) || someComponent accept rest

/-- Whether parts stand for a whole text. -/
def partsAccept : List GlobPart → List Char → Bool
  | [], text => text.isEmpty
  | .anyRun :: parts, text => someSuffix (partsAccept parts) text
  | .anyComponents :: parts, text =>
    partsAccept parts text || someComponent (partsAccept parts) text
  | _ :: _, [] => false
  | part :: parts, c :: rest => partAccepts part c && partsAccept parts rest

/-- Whether a pattern stands for a path text. -/
def accepts (glob : Glob) (text : String) : Bool := partsAccept glob.parts text.toList

end Glob

end EoAssembly
