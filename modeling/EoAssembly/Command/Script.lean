import EoAssembly.Command.Utility

/-!
Contract: scripts of the shell, as written.

A word is made of letters, of values of variables, of outputs of scripts and of
sums; what is quoted is never split.  A script joins simple commands by pipes, by
`&&` and `||` and by `;`, groups them, chooses between them and repeats them.

Owns:
- `Word` and `Script`, and the tokens a script is written in;
- `Script.read?`, which reads a script.

Does not own: what a script does when it runs.
-/

namespace EoAssembly.Command

/-- A part of a word. -/
inductive Part where
  | letters (text : List Char) (quoted : Bool)
  | value (name : String) (quoted : Bool)
  | output (script : String) (quoted : Bool)
  | sum (expression : String)
  deriving DecidableEq

/-- A word of a script. -/
abbrev Word := List Part

/-- The text of a word that is written without quotes or values. -/
def Word.plain? (word : Word) : Option String :=
  let texts : Option (List (List Char)) := word.mapM fun part =>
    match part with
    | .letters text false => some text
    | _ => none
  texts.map fun found => String.ofList found.flatten

/-- Where a stream of a command goes or comes from. -/
inductive Target where
  | stream (number : Nat)
  | file (name : Word)
  deriving DecidableEq

/-- One mark behind a command: the stream it changes, and where that goes; zero is
the input. -/
structure Redirection where
  stream : Nat
  target : Target
  adds : Bool
  deriving DecidableEq

/-- A script. -/
inductive Script where
  | nothing
  | simple (words : List Word) (redirections : List Redirection)
  | pipe (first second : Script)
  | negation (script : Script)
  | both (first second : Script)
  | either (first second : Script)
  | sequence (first second : Script)
  | choice (condition chosen other : Script)
  | loop (goesOn : Bool) (condition body : Script)
  | each (name : String) (words : List Word) (body : Script)
  | group (alone : Bool) (body : Script) (redirections : List Redirection)

/-- A word, a redirection, or a mark between commands. -/
inductive Token where
  | word (parts : Word)
  | redirection (mark : Redirection)
  | mark (text : String)
  deriving DecidableEq

/-- Whether a character belongs to the name of a variable. -/
def isNameChar (c : Char) : Bool := c.isAlphanum || c == '_'

/-- Whether a character ends a word that is not quoted. -/
def endsWord (c : Char) : Bool := " \t\n;&|<>()".toList.contains c

/-- The text up to the parenthesis that closes `depth + 1` open ones, and what
follows it. -/
def enclosed? : Nat → List Char → Option (List Char × List Char)
  | _, [] => none
  | 0, ')' :: rest => some ([], rest)
  | depth + 1, ')' :: rest =>
    (enclosed? depth rest).map fun (inner, behind) => (')' :: inner, behind)
  | depth, '(' :: rest =>
    (enclosed? (depth + 1) rest).map fun (inner, behind) => ('(' :: inner, behind)
  | depth, c :: rest =>
    (enclosed? depth rest).map fun (inner, behind) => (c :: inner, behind)

/-- What a dollar sign stands for, and what follows it. -/
def behindDollar? (quoted : Bool) : List Char → Option (Part × List Char)
  | '(' :: '(' :: rest =>
    match enclosed? 0 rest with
    | some (expression, ')' :: behind) => some (.sum (String.ofList expression), behind)
    | _ => none
  | '(' :: rest =>
    (enclosed? 0 rest).map fun (script, behind) =>
      (.output (String.ofList script) quoted, behind)
  | '\x7b' :: rest =>
    match rest.span isNameChar with
    | (name, '\x7d' :: behind) => some (.value (String.ofList name) quoted, behind)
    | _ => none
  | [] => none
  | c :: rest =>
    if c.isDigit || "$?#!".toList.contains c then
      some (.value (String.ofList [c]) quoted, rest)
    else match (c :: rest).span isNameChar with
      | ([], _) => none
      | (name, behind) => some (.value (String.ofList name) quoted, behind)

/-- The characters that a backslash and the one behind it stand for. -/
def escapedLetters (quoted : Bool) (next : Char) : List Char :=
  if next = '\n' then []
  else if quoted ∧ !("\x22\\$\x60".toList.contains next) then ['\\', next]
  else [next]

/-- The parts of a word and what follows it, in at most `fuel` steps; `quoted`
tells that double quotes are open. -/
def wordFrom : Nat → Bool → List Char → Option (Word × List Char)
  | _, true, [] => none
  | _, false, [] => some ([], [])
  | 0, _, _ => none
  | fuel + 1, quoted, c :: rest =>
    let behind (part : Part) (left : List Char) : Option (Word × List Char) :=
      (wordFrom fuel quoted left).map fun (parts, last) => (part :: parts, last)
    if c = '\x22' then
      (wordFrom fuel (!quoted) rest).map fun (parts, last) => (.letters [] true :: parts, last)
    else if c = '\x27' ∧ !quoted then
      match rest.span (· != '\x27') with
      | (text, _ :: left) => behind (.letters text true) left
      | _ => none
    else if c = '\x60' then
      match rest.span (· != '\x60') with
      | (text, _ :: left) => behind (.output (String.ofList text) quoted) left
      | _ => none
    else if c = '\\' then
      match rest with
      | [] => some ([.letters ['\\'] true], [])
      | next :: left => behind (.letters (escapedLetters quoted next) true) left
    else if c = '$' then
      match behindDollar? quoted rest with
      | some (part, left) => behind part left
      | none => behind (.letters ['$'] quoted) rest
    else if !quoted && endsWord c then some ([], c :: rest)
    else behind (.letters [c] quoted) rest

/-- The target of a redirection, and what follows it. -/
def targetFrom? (text : List Char) : Option (Target × List Char) :=
  match text.dropWhile (· == ' ') with
  | '&' :: number :: rest => some (.stream (number.toNat - 48), rest)
  | left =>
    match wordFrom (left.length + 1) false left with
    | some ([], _) => none
    | some (word, behind) => some (.file word, behind)
    | none => none

/-- The redirection that a text starts with: the stream it changes, whether it adds
to a file, and what follows the sign. -/
def redirectionSign? : List Char → Option (Nat × Bool × List Char)
  | '2' :: '>' :: '>' :: rest => some (2, true, rest)
  | '1' :: '>' :: '>' :: rest => some (1, true, rest)
  | '>' :: '>' :: rest => some (1, true, rest)
  | '2' :: '>' :: rest => some (2, false, rest)
  | '1' :: '>' :: rest => some (1, false, rest)
  | '>' :: rest => some (1, false, rest)
  | '<' :: rest => some (0, false, rest)
  | _ => none

/-- The mark between commands that a text starts with, and what follows it. -/
def mark? : List Char → Option (String × List Char)
  | '&' :: '&' :: rest => some ("&&", rest)
  | '|' :: '|' :: rest => some ("||", rest)
  | ';' :: rest => some (";", rest)
  | '\n' :: rest => some (";", rest)
  | '&' :: rest => some (";", rest)
  | '|' :: rest => some ("|", rest)
  | '(' :: rest => some ("(", rest)
  | ')' :: rest => some (")", rest)
  | _ => none

/-- The tokens of a script, in at most `fuel` steps. -/
def tokensFrom : Nat → List Char → Option (List Token)
  | _, [] => some []
  | 0, _ => none
  | fuel + 1, c :: rest =>
    if c = ' ' ∨ c = '\t' then tokensFrom fuel rest
    else if c = '#' then tokensFrom fuel (rest.dropWhile (· != '\n'))
    else match redirectionSign? (c :: rest) with
      | some (stream, adds, left) => do
        let (target, behind) ← targetFrom? left
        let others ← tokensFrom fuel behind
        pure (.redirection ⟨stream, target, adds⟩ :: others)
      | none =>
        match mark? (c :: rest) with
        | some (text, behind) => (tokensFrom fuel behind).map (.mark text :: ·)
        | none => do
          let (parts, behind) ← wordFrom (rest.length + 2) false (c :: rest)
          let others ← tokensFrom fuel behind
          pure (.word parts :: others)

namespace Script

/-- The keyword or mark that a list of tokens starts with. -/
def sign? : List Token → Option String
  | .word parts :: _ => parts.plain?
  | .mark text :: _ => some text
  | _ => none

/-- The tokens behind a keyword or mark, which must come first. -/
def expect? (text : String) (tokens : List Token) : Option (List Token) :=
  if sign? tokens = some text then some tokens.tail else none

/-- The signs that end a list of commands. -/
def closing : List String := [")", "\x7d", "then", "elif", "else", "fi", "do", "done"]

/-- Tokens behind separators. -/
def skipSeparators : List Token → List Token
  | .mark ";" :: rest => skipSeparators rest
  | tokens => tokens

/-- The redirections that tokens start with, and what follows them. -/
def redirectionsFrom : List Token → List Redirection × List Token
  | .redirection mark :: rest =>
    let (marks, behind) := redirectionsFrom rest
    (mark :: marks, behind)
  | tokens => ([], tokens)

/-- The words and redirections of a simple command, and what follows it. -/
def simpleFrom : List Token → List Word × List Redirection × List Token
  | .word parts :: rest =>
    let (words, marks, behind) := simpleFrom rest
    (parts :: words, marks, behind)
  | .redirection mark :: rest =>
    let (words, marks, behind) := simpleFrom rest
    (words, mark :: marks, behind)
  | tokens => ([], [], tokens)

/-- The words behind a keyword, up to a separator. -/
def wordsFrom : List Token → List Word × List Token
  | .word parts :: rest =>
    let (words, behind) := wordsFrom rest
    (parts :: words, behind)
  | tokens => ([], tokens)

mutual

/-- A list of commands up to a closing sign or the end. -/
def listFrom : Nat → List Token → Option (Script × List Token)
  | 0, _ => none
  | fuel + 1, tokens =>
    let start := skipSeparators tokens
    if start.isEmpty || (sign? start).any closing.contains then some (.nothing, start)
    else do
      let (first, behind) ← chainFrom fuel start
      match behind with
      | .mark ";" :: rest =>
        let (others, last) ← listFrom fuel rest
        match others with
        | .nothing => pure (first, last)
        | _ => pure (.sequence first others, last)
      | _ => pure (first, behind)

/-- Pipelines between `&&` and `||`, which bind alike, from the left. -/
def chainFrom : Nat → List Token → Option (Script × List Token)
  | 0, _ => none
  | fuel + 1, tokens => do
    let (first, behind) ← pipelineFrom fuel tokens
    linksFrom fuel first behind

/-- What joins a chain of pipelines that starts with a script. -/
def linksFrom : Nat → Script → List Token → Option (Script × List Token)
  | 0, _, _ => none
  | fuel + 1, first, .mark "&&" :: rest => do
    let (second, behind) ← pipelineFrom fuel (skipSeparators rest)
    linksFrom fuel (.both first second) behind
  | fuel + 1, first, .mark "||" :: rest => do
    let (second, behind) ← pipelineFrom fuel (skipSeparators rest)
    linksFrom fuel (.either first second) behind
  | _ + 1, first, tokens => some (first, tokens)

/-- Commands between pipes. -/
def pipelineFrom : Nat → List Token → Option (Script × List Token)
  | 0, _ => none
  | fuel + 1, tokens =>
    if sign? tokens = some "!" then
      (pipelineFrom fuel tokens.tail).map fun (script, behind) => (.negation script, behind)
    else do
      let (first, behind) ← commandFrom fuel tokens
      match behind with
      | .mark "|" :: rest =>
        let (second, last) ← pipelineFrom fuel (skipSeparators rest)
        pure (.pipe first second, last)
      | _ => pure (first, behind)

/-- One command. -/
def commandFrom : Nat → List Token → Option (Script × List Token)
  | 0, _ => none
  | fuel + 1, tokens =>
    match sign? tokens with
    | some "(" => groupFrom fuel true ")" tokens.tail
    | some "\x7b" => groupFrom fuel false "\x7d" tokens.tail
    | some "if" => choiceFrom fuel tokens.tail
    | some "while" => loopFrom fuel true tokens.tail
    | some "until" => loopFrom fuel false tokens.tail
    | some "for" => eachFrom fuel tokens.tail
    | _ =>
      match simpleFrom tokens with
      | ([], [], _) => none
      | (words, marks, behind) => some (.simple words marks, behind)

/-- A group up to its closing sign, with its redirections. -/
def groupFrom : Nat → Bool → String → List Token → Option (Script × List Token)
  | 0, _, _, _ => none
  | fuel + 1, alone, close, tokens => do
    let (body, behind) ← listFrom fuel tokens
    let left ← expect? close behind
    let (marks, last) := redirectionsFrom left
    pure (.group alone body marks, last)

/-- A choice behind its first keyword. -/
def choiceFrom : Nat → List Token → Option (Script × List Token)
  | 0, _ => none
  | fuel + 1, tokens => do
    let (condition, beforeThen) ← listFrom fuel tokens
    let (chosen, behind) ← listFrom fuel (← expect? "then" beforeThen)
    if sign? behind = some "elif" then
      let (other, last) ← choiceFrom fuel behind.tail
      pure (.choice condition chosen other, last)
    else if sign? behind = some "else" then
      let (other, beforeEnd) ← listFrom fuel behind.tail
      pure (.choice condition chosen other, ← expect? "fi" beforeEnd)
    else pure (.choice condition chosen .nothing, ← expect? "fi" behind)

/-- A loop behind its keyword. -/
def loopFrom : Nat → Bool → List Token → Option (Script × List Token)
  | 0, _, _ => none
  | fuel + 1, goesOn, tokens => do
    let (condition, beforeDo) ← listFrom fuel tokens
    let (body, behind) ← listFrom fuel (← expect? "do" beforeDo)
    let left ← expect? "done" behind
    let (marks, last) := redirectionsFrom left
    pure (.group false (.loop goesOn condition body) marks, last)

/-- A loop over words behind its keyword. -/
def eachFrom : Nat → List Token → Option (Script × List Token)
  | 0, _ => none
  | fuel + 1, tokens => do
    let name ← sign? tokens
    let (words, behind) := wordsFrom (← expect? "in" tokens.tail)
    let (body, last) ← listFrom fuel (← expect? "do" (skipSeparators behind))
    pure (.each name words body, ← expect? "done" last)

end

/-- Reads a script; every step of reading takes a token or goes one rule down. -/
def read? (text : String) : Option Script := do
  let tokens ← tokensFrom (text.length + 1) text.toList
  match ← listFrom (8 * (tokens.length + 1)) tokens with
  | (script, []) => some script
  | _ => none

end Script

end EoAssembly.Command
