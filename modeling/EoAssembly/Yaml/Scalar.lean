import EoAssembly.Text.Hex
import EoAssembly.Yaml.Cursor

/-!
Contract: the scalars of a YAML text.

Owns the three ways to write one, and how each joins its lines:
- plain, up to a mark that ends it;
- between quotes, with escapes between double ones;
- as a block below its head, kept or folded.
-/

namespace EoAssembly.Yaml

/-- How a scalar is written. -/
inductive Style where
  | plain
  | quoted
  | literal
  | folded
  deriving DecidableEq

/-- What blanks and line ends between two parts of a scalar stand for: the first
line end is a blank unless more follow, and those stand for themselves. -/
def foldedBreaks (first others : List Char) : List Char :=
  if first == ['\n'] then (if others.isEmpty then [' '] else others) else first ++ others

/-- Blanks and line ends between two parts of a scalar: the blanks before a line
end, and then the first line end and those that follow it. -/
structure Gap where
  blanks : List Char
  first : List Char
  others : List Char
  broken : Bool

/-- A gap with nothing in it. -/
def Gap.empty : Gap := ⟨[], [], [], false⟩

/-- What a gap stands for. -/
def Gap.text (gap : Gap) : List Char :=
  if gap.broken then foldedBreaks gap.first gap.others else gap.blanks

/-- The gap at a cursor, and the cursor behind it.  A tab left of column `indent`
on a further line is refused. -/
def gapFrom (indent : Nat) : Nat → Gap → Cursor → Option (Gap × Cursor)
  | 0, _, _ => none
  | fuel + 1, gap, cursor =>
    match cursor.next? with
    | none => some (gap, cursor)
    | some c =>
      if isBlank c then
        if gap.broken then
          if c == '\t' && cursor.column < indent then none
          else gapFrom indent fuel gap (cursor.skip 1)
        else gapFrom indent fuel { gap with blanks := gap.blanks ++ [c] } (cursor.skip 1)
      else if isBreak c then
        let text := cursor.breakText
        let next :=
          if gap.broken then { gap with others := gap.others ++ text }
          else { gap with first := text, broken := true }
        gapFrom indent fuel next cursor.skipBreak
      else some (gap, cursor)

/-- Whether a character ends a plain scalar between brackets. -/
def endsFlowScalar (c : Char) : Bool :=
  c == ',' || c == '[' || c == ']' || c == '\x7b' || c == '\x7d'

/-- The characters of a plain scalar up to a blank or a mark, and the cursor
behind them; between brackets a colon right before a mark is refused. -/
def plainRun (inFlow : Bool) : Nat → Cursor → Option (List Char × Cursor)
  | 0, cursor => some ([], cursor)
  | fuel + 1, cursor =>
    match cursor.next? with
    | none => some ([], cursor)
    | some c =>
      if isBlank c || isBreak c then some ([], cursor)
      else if c == ':' && cursor.blankOrEndAt 1 then some ([], cursor)
      else if inFlow && c == ':' &&
          (cursor.ahead? 1).any (fun following => endsFlowScalar following || following == '?') then
        none
      else if inFlow && endsFlowScalar c then some ([], cursor)
      else
        (plainRun inFlow fuel (cursor.skip 1)).map fun found => (c :: found.1, found.2)

/-- The rest of a plain scalar behind a gap: its text, the cursor behind it, and
whether its last gap held a line end. -/
def plainFrom (inFlow : Bool) (indent : Nat) :
    Nat → Gap → Cursor → Option (List Char × Cursor × Bool)
  | 0, _, _ => none
  | fuel + 1, gap, cursor =>
    if cursor.atDocumentMark || cursor.next? == some '#' then some ([], cursor, gap.broken)
    else
      match plainRun inFlow (cursor.rest.length + 1) cursor with
      | none => none
      | some (run, behind) =>
        let before := if run.isEmpty then [] else gap.text
        let start := if run.isEmpty then gap else Gap.empty
        if !behind.blankOrEndAt 0 || behind.next?.isNone then
          some (before ++ run, behind, start.broken)
        else
          match gapFrom indent (behind.rest.length + 1) start behind with
          | none => none
          | some (next, last) =>
            if !inFlow && last.column < indent then some (before ++ run, last, next.broken)
            else
              (plainFrom inFlow indent fuel next last).map fun found =>
                (before ++ run ++ found.1, found.2)

/-- A plain scalar. -/
def plain (inFlow : Bool) (indent : Nat) (cursor : Cursor) :
    Option (List Char × Cursor × Bool) :=
  plainFrom inFlow indent (cursor.rest.length + 1) Gap.empty cursor

/-- The character that an escape of one letter stands for. -/
def escaped? (c : Char) : Option Char :=
  match c with
  | '0' => some (Char.ofNat 0)
  | 'a' => some (Char.ofNat 7)
  | 'b' => some (Char.ofNat 8)
  | 't' => some '\t'
  | '\t' => some '\t'
  | 'n' => some '\n'
  | 'v' => some (Char.ofNat 11)
  | 'f' => some (Char.ofNat 12)
  | 'r' => some '\r'
  | 'e' => some (Char.ofNat 27)
  | ' ' => some ' '
  | '\x22' => some '\x22'
  | '/' => some '/'
  | '\\' => some '\\'
  | 'N' => some (Char.ofNat 0x85)
  | '_' => some (Char.ofNat 0xA0)
  | 'L' => some (Char.ofNat 0x2028)
  | 'P' => some (Char.ofNat 0x2029)
  | _ => none

/-- The number of digits that an escape takes. -/
def escapeLength? (c : Char) : Option Nat :=
  match c with
  | 'x' => some 2
  | 'u' => some 4
  | 'U' => some 8
  | _ => none

/-- The character of an escape by its number, and the cursor behind it. -/
def numbered? (length : Nat) (cursor : Cursor) : Option (Char × Cursor) :=
  let digits := cursor.rest.take length
  if digits.length = length then
    match Text.natOfHex? digits with
    | some code =>
      if code.isValidChar then some (Char.ofNat code, cursor.skip length) else none
    | none => none
  else none

/-- The characters of a quoted scalar up to a gap or the closing quote, the cursor
behind them, and whether an escaped line end stopped them. -/
def quotedRun (quote : Char) : Nat → Cursor → Option (List Char × Cursor × Bool)
  | 0, _ => none
  | fuel + 1, cursor =>
    match cursor.rest with
    | [] => none
    | c :: rest =>
      if isBlank c || isBreak c then some ([], cursor, false)
      else if c = quote then
        if quote = '\x27' ∧ rest.head? = some '\x27' then
          (quotedRun quote fuel (cursor.skip 2)).map fun found => ('\x27' :: found.1, found.2)
        else some ([], cursor, false)
      else if c = '\\' ∧ quote = '\x22' then
        match rest.head? with
        | none => none
        | some letter =>
          if isBreak letter then some ([], (cursor.skip 1).skipBreak, true)
          else
            match escaped? letter with
            | some read =>
              (quotedRun quote fuel (cursor.skip 2)).map fun found => (read :: found.1, found.2)
            | none =>
              match (escapeLength? letter).bind fun length =>
                numbered? length (cursor.skip 2) with
              | none => none
              | some (read, behind) =>
                (quotedRun quote fuel behind).map fun found => (read :: found.1, found.2)
      else (quotedRun quote fuel (cursor.skip 1)).map fun found => (c :: found.1, found.2)

/-- The rest of a quoted scalar, and the cursor behind its closing quote. -/
def quotedFrom (quote : Char) : Nat → Cursor → Option (List Char × Cursor)
  | 0, _ => none
  | fuel + 1, cursor =>
    if cursor.atDocumentMark || cursor.rest.isEmpty then none
    else
      match quotedRun quote (cursor.rest.length + 1) cursor with
      | none => none
      | some (run, behind, escapedBreak) =>
        if behind.next? == some quote && !escapedBreak then some (run, behind.skip 1)
        else
          let start : Gap := if escapedBreak then ⟨[], [], [], true⟩ else Gap.empty
          match gapFrom 0 (behind.rest.length + 1) start behind with
          | none => none
          | some (gap, last) =>
            (quotedFrom quote fuel last).map fun found =>
              (run ++ gap.text ++ found.1, found.2)

/-- A quoted scalar, at its opening quote. -/
def quoted (quote : Char) (cursor : Cursor) : Option (List Char × Cursor) :=
  quotedFrom quote (cursor.rest.length + 1) (cursor.skip 1)

/-- How a block ends: without its last line ends, with one, or with all. -/
inductive Chomp where
  | strip
  | clip
  | keep
  deriving DecidableEq

/-- The ending that a sign asks for. -/
def chomp? (c : Char) : Option Chomp :=
  if c = '+' then some .keep else if c = '-' then some .strip else none

/-- The indentation that a digit asks for. -/
def depth? (c : Char) : Option Nat :=
  if '1' ≤ c ∧ c ≤ '9' then some (c.toNat - 48) else none

/-- The head of a block behind its mark: how it ends, its indentation if it gives
one, and the cursor behind. -/
def blockHead? (cursor : Cursor) : Option (Chomp × Option Nat × Cursor) :=
  match cursor.next? with
  | none => some (.clip, none, cursor)
  | some first =>
    match chomp? first with
    | some ending =>
      match cursor.ahead? 1 with
      | some second =>
        if second = '0' then none
        else match depth? second with
          | some depth => some (ending, some depth, cursor.skip 2)
          | none => some (ending, none, cursor.skip 1)
      | none => some (ending, none, cursor.skip 1)
    | none =>
      if first = '0' then none
      else match depth? first with
        | none => some (.clip, none, cursor)
        | some depth =>
          match (cursor.ahead? 1).bind chomp? with
          | some ending => some (ending, some depth, cursor.skip 2)
          | none => some (.clip, some depth, cursor.skip 1)

/-- The line ends before the next line of a block, the deepest column on the way,
and the cursor behind them; an unknown indentation is zero. -/
def blockBreaks (indent : Nat) : Nat → Nat → List Char → Cursor →
    Option (List Char × Nat × Cursor)
  | 0, _, _, _ => none
  | fuel + 1, deepest, breaks, cursor =>
    let spaces := (cursor.rest.takeWhile (· == ' ')).length
    let behind :=
      cursor.skip (if indent = 0 then spaces else min spaces (indent - cursor.column))
    let deepest := max deepest behind.column
    if (indent = 0 || behind.column < indent) && behind.next? == some '\t' then none
    else if behind.next?.any isBreak then
      blockBreaks indent fuel deepest (breaks ++ behind.breakText) behind.skipBreak
    else some (breaks, deepest, behind)

/-- The lines of a block: its text without the last line ends, these line ends,
and the cursor behind.  `lead` is the line end before, `breaks` those that follow
it, and `afterBlank` tells that the line before starts with a blank. -/
def blockLines (isLiteral : Bool) (indent : Nat) :
    Nat → List Char → List Char → Bool → Cursor → Option (List Char × List Char × List Char × Cursor)
  | 0, _, _, _, _ => none
  | fuel + 1, lead, breaks, afterBlank, cursor =>
    if cursor.column != indent || cursor.rest.isEmpty then some ([], lead, breaks, cursor)
    else
      let startsBlank := cursor.next?.any isBlank
      let folds := !isLiteral && lead == ['\n'] && !afterBlank && !startsBlank
      let before := (if folds then (if breaks.isEmpty then [' '] else []) else lead) ++ breaks
      let (run, behind) := cursor.take fun c => !isBreak c
      match blockBreaks indent (behind.rest.length + 2) 0 [] behind.skipBreak with
      | none => none
      | some (next, _, last) =>
        (blockLines isLiteral indent fuel behind.breakText next startsBlank last).map fun found =>
          (before ++ run ++ found.1, found.2)

/-- A block, at its mark; `outer` is the indentation around it, if there is any. -/
def block (isLiteral : Bool) (outer : Option Nat) (cursor : Cursor) :
    Option (List Char × Cursor) :=
  match blockHead? (cursor.skip 1) with
  | none => none
  | some (ending, depth, behindHead) =>
    let behindBlanks := behindHead.skipWhile isBlank
    let behindComment :=
      if behindBlanks.next? == some '#' then behindBlanks.skipWhile fun c => !isBreak c
      else behindBlanks
    if !behindComment.atLineEnd then none
    else
      let body := behindComment.skipBreak
      let given := (depth.map fun extra => outer.getD 0 + extra).getD 0
      match blockBreaks given (body.rest.length + 2) 0 [] body with
      | none => none
      | some (breaks, deepest, first) =>
        let least := match outer with
          | some column => column + 1
          | none => 0
        let indent := if given = 0 then max (max deepest least) 1 else given
        match blockLines isLiteral indent (first.rest.length + 2) [] breaks false first with
        | none => none
        | some (text, lead, trailing, last) =>
          let closing := match ending with
            | .strip => []
            | .clip => lead
            | .keep => lead ++ trailing
          some (text ++ closing, last)

end EoAssembly.Yaml
