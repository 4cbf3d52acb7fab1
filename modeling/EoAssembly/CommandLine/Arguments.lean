import EoAssembly.Text.Pieces

/-!
Contract: reading the words of a command line by the options that are known.

An option is written with two hyphens and its name, or with one hyphen and its
letter, where several letters may share a hyphen.  Its value stands behind an
equals sign, right behind its letter, or in the next word, which then must not
start with a hyphen.  Two hyphens alone end the options, and one hyphen alone is
a word like any other.

Owns `OptionKind`, `Reading`, and `readWords`, which
reads from left to right and stops at the first word that can't be read.
-/

namespace EoAssembly.CommandLine

/-- What an option takes. -/
inductive Takes where
  | nothing
  | text
  | path
  deriving DecidableEq

/-- An option that a command knows. -/
structure OptionKind where
  name : String
  letter : Option Char
  takes : Takes
  deriving DecidableEq

/-- Why reading a command line ended early. -/
inductive Stop where
  /-- The words make no sense. -/
  | usage
  /-- The user asks for help. -/
  | help
  /-- The user asks for the version. -/
  | version
  deriving DecidableEq

/-- The options and the other words of a command line. -/
structure Reading where
  options : List (String × String)
  words : List String
  deriving DecidableEq

/-- A word by the way it starts. -/
inductive Word where
  | endOfOptions
  | named (name : String) (value : Option String)
  | letters (letters : List Char)
  | plain (text : String)
  deriving DecidableEq

/-- A word as it is read. -/
def Word.ofText (text : String) : Word :=
  match text.toList with
  | ['-', '-'] => .endOfOptions
  | '-' :: '-' :: rest =>
    match Text.cut (· == '=') rest with
    | some (name, value) => .named (String.ofList name) (some (String.ofList value))
    | none => .named (String.ofList rest) none
  | '-' :: c :: rest => .letters (c :: rest)
  | _ => .plain text

/-- The options that ask for something else than a command. -/
def stopFor? (versioned : Bool) (name : String) : Option Stop :=
  if name = "help" then some .help
  else if versioned && name == "version" then some .version
  else none

/-- The letters of those options. -/
def stopForLetter? (versioned : Bool) (letter : Char) : Option Stop :=
  if letter = 'h' then some .help
  else if versioned && letter == 'V' then some .version
  else none

/-- Whether an option may have a value; a path is never empty. -/
def valueAllowed (kind : OptionKind) (value : String) : Bool :=
  match kind.takes with
  | .nothing => false
  | .text => true
  | .path => value != ""

/-- A reading with one more option in front. -/
def Reading.withOption (kind : OptionKind) (value : String) (reading : Reading) : Reading :=
  { reading with options := (kind.name, value) :: reading.options }

/-- A reading with one more word in front. -/
def Reading.withWord (word : String) (reading : Reading) : Reading :=
  { reading with words := word :: reading.words }

/-- A reading with more options in front. -/
def Reading.withOptions (options : List (String × String)) (reading : Reading) : Reading :=
  { reading with options := options ++ reading.options }

/-- The value behind a letter in one word. -/
def attachedValue (rest : List Char) : String :=
  match rest with
  | '=' :: value => String.ofList value
  | value => String.ofList value

/-- The options that letters stand for, and the option that waits for a value in the
next word, if the last one does. -/
def readLetters (kinds : List OptionKind) (versioned : Bool) :
    List Char → Except Stop (List (String × String) × Option OptionKind)
  | [] => .ok ([], none)
  | letter :: rest =>
    match kinds.find? fun kind => kind.letter == some letter with
    | none => .error ((stopForLetter? versioned letter).getD .usage)
    | some kind =>
      if kind.takes = .nothing then
        match readLetters kinds versioned rest with
        | .ok (options, pending) => .ok ((kind.name, "") :: options, pending)
        | .error stop => .error stop
      else if rest.isEmpty then .ok ([], some kind)
      else if valueAllowed kind (attachedValue rest) then
        .ok ([(kind.name, attachedValue rest)], none)
      else .error .usage

/-- Whether a word may be the value of the option before it. -/
def isValueFor (kind : OptionKind) (text : String) : Bool :=
  match Word.ofText text with
  | .plain value => valueAllowed kind value
  | _ => false

/-- What a word does to the options, and the option that waits for a value. -/
def readOption (kinds : List OptionKind) (versioned : Bool) :
    Word → Except Stop (List (String × String) × Option OptionKind)
  | .named name value =>
    match kinds.find? (fun kind => kind.name == name), value with
    | none, none => .error ((stopFor? versioned name).getD .usage)
    | none, some _ => .error .usage
    | some kind, some text =>
      if valueAllowed kind text then .ok ([(name, text)], none) else .error .usage
    | some kind, none =>
      if kind.takes = .nothing then .ok ([(name, "")], none) else .ok ([], some kind)
  | .letters letters => readLetters kinds versioned letters
  | _ => .ok ([], none)

/-- Reads words of which at most `limit` are no options; where the first of these
names a command, all behind it is left as it is. -/
def readWords (kinds : List OptionKind) (versioned commandFirst : Bool) (limit : Nat) :
    List String → Except Stop Reading
  | [] => .ok ⟨[], []⟩
  | text :: rest =>
    match Word.ofText text with
    | .endOfOptions =>
      if rest.length ≤ limit && (!commandFirst || rest.isEmpty) then .ok ⟨[], rest⟩
      else .error .usage
    | .plain word =>
      if commandFirst then .ok ⟨[], word :: rest⟩
      else if limit = 0 then .error .usage
      else (readWords kinds versioned commandFirst (limit - 1) rest).map (Reading.withWord word)
    | word =>
      match readOption kinds versioned word with
      | .error stop => .error stop
      | .ok (options, none) =>
        (readWords kinds versioned commandFirst limit rest).map (Reading.withOptions options)
      | .ok (options, some kind) =>
        match rest with
        | value :: others =>
          if isValueFor kind value then
            (readWords kinds versioned commandFirst limit others).map fun reading =>
              (reading.withOption kind value).withOptions options
          else .error .usage
        | [] => .error .usage

/-- Whether no option comes twice. -/
def optionsOnce : List (String × String) → Bool
  | [] => true
  | (name, _) :: rest => !(rest.any fun other => other.1 == name) && optionsOnce rest

/-- Reads words in which no option comes twice. -/
def readOnce (kinds : List OptionKind) (versioned commandFirst : Bool) (limit : Nat)
    (words : List String) : Except Stop Reading :=
  match readWords kinds versioned commandFirst limit words with
  | .error stop => .error stop
  | .ok reading => if optionsOnce reading.options then .ok reading else .error .usage

/-- The value of an option. -/
def Reading.value? (reading : Reading) (name : String) : Option String :=
  reading.options.lookup name

/-- Whether an option is there. -/
def Reading.has (reading : Reading) (name : String) : Bool := (reading.value? name).isSome

end EoAssembly.CommandLine
