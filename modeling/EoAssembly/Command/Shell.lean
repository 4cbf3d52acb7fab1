import EoAssembly.Command.Script
import EoAssembly.Text.Utf8

/-!
Contract: running short scripts of the shell.

A script runs with one input, variables and files of its own, which are gone when
it ends.  Each command gets what the one before it left of the input; the parts of
a pipe, the commands between parentheses and the outputs put into words run on
their own and leave no variables behind.

Owns:
- `Shell.State`, what a script has done so far, and the streams it writes to;
- `Shell.run`, which runs a script, in a bounded number of steps;
- `programs`, the set of programs that a build may call.
-/

namespace EoAssembly.Command

namespace Shell

/-- Where a stream is written to; `pipe` is what the next command of a pipe reads. -/
inductive Sink where
  | output
  | errors
  | pipe
  | file (name : String)
  | nowhere
  deriving DecidableEq

/-- What a script has done so far. -/
structure State where
  environment : List (String × String)
  directory : String
  files : List (String × List UInt8)
  input : List UInt8
  output : List UInt8
  errors : List UInt8
  piped : List UInt8
  outputTo : Sink
  errorsTo : Sink
  status : Nat
  strict : Bool
  ended : Bool
  killed : Bool

namespace State

/-- The value of a variable. -/
def value (state : State) (name : String) : String :=
  if name = "?" then toString state.status
  else if name = "PWD" then state.directory
  else (state.environment.lookup name).getD ""

/-- A state in which a variable has a value. -/
def assign (state : State) (name value : String) : State :=
  { state with environment := (name, value) :: state.environment, status := 0 }

/-- The bytes of a file that a script can read. -/
def file? (state : State) (name : String) : Option (List UInt8) :=
  if name = "/dev/null" then some []
  else if name = "/dev/zero" then some (List.replicate endless 0)
  else state.files.lookup name

/-- A state in which a file has some bytes. -/
def put (state : State) (name : String) (bytes : List UInt8) : State :=
  { state with files := (name, bytes) :: state.files }

/-- Writes bytes to a sink. -/
def write (state : State) (sink : Sink) (bytes : List UInt8) : State :=
  match sink with
  | .output => { state with output := state.output ++ bytes }
  | .errors => { state with errors := state.errors ++ bytes }
  | .pipe => { state with piped := state.piped ++ bytes }
  | .file name => state.put name ((state.file? name).getD [] ++ bytes)
  | .nowhere => state

/-- The state behind a completion. -/
def after (state : State) (completion : Completion) : State :=
  { (state.write state.outputTo completion.output).write state.errorsTo completion.errors with
    status := completion.status.getD 137 }

/-- The state behind a command that writes one line of errors. -/
def complain (state : State) (status : Nat) (line : String) : State :=
  let name := state.value "0"
  state.after ⟨some status, [], bytesOf s!"{name}: 1: {line}\n"⟩

/-- What a state that ran on its own leaves behind in another. -/
def rejoin (outer inner : State) : State :=
  { inner with
    environment := outer.environment, directory := outer.directory
    strict := outer.strict, ended := outer.ended || inner.killed }

/-- A state that ends when it minds failures and the last command failed. -/
def checked (guarded : Bool) (state : State) : State :=
  if state.strict ∧ !guarded ∧ state.status ≠ 0 then { state with ended := true } else state

end State

/-- The operators and operands of a sum, in at most `fuel` steps; the operand behind
an operator may be a number or a variable. -/
def operands (value : String → Int) : Nat → Char → List Char → List (Char × Int)
  | 0, _, _ => []
  | _, _, [] => []
  | fuel + 1, operator, c :: rest =>
    if isNameChar c || c == '$' then
      let (name, behind) := (if c = '$' then rest else c :: rest).span isNameChar
      let text := String.ofList name
      let operand := (text.toInt?).getD (value text)
      (operator, operand) :: operands value fuel '+' behind
    else if c = ' ' then operands value fuel operator rest
    else operands value fuel c rest

/-- The value of a sum of products: the whole is `total + last`. -/
def sumOf (value : String → Int) (expression : String) : Int :=
  let (total, last) := (operands value (expression.length + 1) '+' expression.toList).foldl
    (fun (total, last) (operator, operand) =>
      if operator = '*' then (total, last * operand)
      else if operator = '/' then (total, Int.tdiv last operand)
      else if operator = '%' then (total, Int.tmod last operand)
      else if operator = '-' then (total + last, -operand)
      else (total + last, operand)) ((0, 0) : Int × Int)
  total + last

/-- The words that pieces of text become: those marked so are split at blanks, all
others belong to the word that is open. -/
def fields : Option (List Char) → List (List Char × Bool) → List String
  | none, [] => []
  | some word, [] => [String.ofList word]
  | opened, (text, false) :: rest => fields (some (opened.getD [] ++ text)) rest
  | opened, (text, true) :: rest =>
    let (last, words) := text.foldl (fun (word, found) c =>
      if c == ' ' || c == '\t' || c == '\n' then
        (none, found ++ (word.map String.ofList).toList)
      else (some (word.getD [] ++ [c]), found)) (opened, [])
    words ++ fields last rest

/-- A text without the line ends at its end. -/
def dropLineEnds (text : List Char) : List Char :=
  (text.reverse.dropWhile (· == '\n')).reverse

/-- The name and the value that a word assigns, if it is an assignment. -/
def assignment? (word : String) : Option (String × String) :=
  match Text.splitFirst '=' word with
  | some (name, value) =>
    if name != "" && name.toList.all isNameChar && !name.toList.head?.any Char.isDigit then
      some (name, value)
    else none
  | none => none

/-- The text up to the next line end, for a variable. -/
def State.readLine (state : State) (name : String) : State :=
  let line := state.input.takeWhile (· != 10)
  let behind := state.input.drop (line.length + 1)
  let status := if line.length < state.input.length then 0 else 1
  { state.assign name (Text.ofBytesLenient line) with input := behind, status := status }

/-- What the shell's own `echo` writes: escapes stand for their bytes. -/
def echoed (words : List String) : List UInt8 :=
  let text := (Text.joinAll ' ' words).toList.flatMap fun c => if c = '%' then ['%', '%'] else [c]
  (formatted (text.length + 1) [] text).1

/-- The bytes of the files that arguments name, and the complaints about those that
are not there. -/
def State.readFiles (state : State) (names : List String) : Completion :=
  names.foldl (fun found name =>
    match if name = "-" then some state.input else state.file? name with
    | some bytes => { found with output := found.output ++ bytes }
    | none =>
      { found with
        status := some 1
        errors := found.errors ++ bytesOf s!"cat: {name}: No such file or directory\n" })
    ⟨some 0, [], []⟩

/-- Runs a program that is not part of the shell. -/
def State.program (state : State) (program : String) (arguments : List String) : State :=
  let name := programName program
  match name, arguments with
  | "cat", file :: files => state.after (state.readFiles (file :: files))
  | "printenv", [variableName] =>
    match state.environment.lookup variableName with
    | some text => state.after (wrote (text ++ "\n"))
    | none => { state with status := 1 }
  | _, _ =>
    match utility? name arguments state.directory state.input with
    | some (completion, input) => { state.after completion with input := input }
    | none =>
      match (arguments.getLast?.bind state.file?), filter? name arguments.dropLast with
      | some bytes, some change => state.after ⟨some 0, change bytes, []⟩
      | _, _ => state.complain 127 s!"{program}: not found"

/-- The directory that a path leads to. -/
def directoryFrom (directory path : String) : String :=
  if Text.startsWith "/" path then path
  else if path = ".." then
    "/" ++ Text.joinAll '/' ((Text.splitAll '/' directory).filter (· != "")).dropLast
  else directory

/-- Runs one simple command whose words are known. -/
def State.command (state : State) (words : List String) : State :=
  match words with
  | [] => { state with status := 0 }
  | "exit" :: rest =>
    { state with
      ended := true, status := ((rest.head?.bind String.toNat?).getD state.status) % 256 }
  | ":" :: _ => { state with status := 0 }
  | "wait" :: _ => { state with status := 0 }
  | "unset" :: name :: _ => state.assign name ""
  | "export" :: word :: _ =>
    match assignment? word with
    | some (name, value) => state.assign name value
    | none => { state with status := 0 }
  | "set" :: option :: _ =>
    { state with strict := state.strict || Text.startsWith "-e" option, status := 0 }
  | "cd" :: path :: _ =>
    { state with directory := directoryFrom state.directory path, status := 0 }
  | "kill" :: _ => { state with ended := true, killed := true }
  | ["read", name] => state.readLine name
  | ["read", "-r", name] => state.readLine name
  | "echo" :: "-n" :: rest => state.after ⟨some 0, echoed rest, []⟩
  | "echo" :: rest => state.after ⟨some 0, echoed rest ++ [10], []⟩
  | program :: arguments => state.program program arguments

/-- A state whose streams go where a redirection says, or nothing when it cannot. -/
def State.redirect? (state : State) (stream : Nat) (adds : Bool) :
    Sum Nat String → Option State
  | .inl number =>
    let sink := if number = 1 then state.outputTo else state.errorsTo
    some (if stream = 2 then { state with errorsTo := sink } else { state with outputTo := sink })
  | .inr name =>
    if stream = 0 then
      (state.file? name).map fun bytes => { state with input := bytes }
    else
      let sink := if name = "/dev/null" then .nowhere else .file name
      let emptied := if adds || name == "/dev/null" then state else state.put name []
      some (if stream = 2 then { emptied with errorsTo := sink }
        else { emptied with outputTo := sink })

/-- The variables for the words behind a script, the first of which is its name. -/
def positional (words : List String) : List (String × String) :=
  let named := if words.isEmpty then ["sh"] else words
  ("#", toString (named.length - 1))
    :: (List.range named.length).zipWith (fun place word => (toString place, word)) named

mutual

/-- The pieces of text that the parts of a word stand for, and whether each of them
is split. -/
def pieces : Nat → State → Word → State × List (List Char × Bool)
  | 0, state, _ => (state, [])
  | _, state, [] => (state, [])
  | fuel + 1, state, part :: rest =>
    let (next, piece) :=
      match part with
      | .letters text _ => (state, text, false)
      | .value name quoted => (state, (state.value name).toList, !quoted)
      | .output script quoted =>
        let inner := runText fuel { state with outputTo := .pipe, piped := [] } script
        let text := dropLineEnds (Text.ofBytesLenient inner.piped).toList
        ({ state.rejoin inner with outputTo := state.outputTo, piped := state.piped }, text, !quoted)
      | .sum expression =>
        let value := sumOf (fun name => ((state.value name).toInt?).getD 0) expression
        (state, (toString value).toList, true)
    let (last, others) := pieces fuel next rest
    (last, piece :: others)

/-- The words that written words become. -/
def expanded : Nat → State → List Word → State × List String
  | 0, state, _ => (state, [])
  | _, state, [] => (state, [])
  | fuel + 1, state, word :: rest =>
    let (next, found) := pieces fuel state word
    let (last, others) := expanded fuel next rest
    (last, fields none found ++ others)

/-- A state whose streams go where the marks behind a command say. -/
def redirected? : Nat → State → List Redirection → Option State
  | 0, _, _ => none
  | _, state, [] => some state
  | fuel + 1, state, mark :: rest =>
    let (next, target) :=
      match mark.target with
      | .stream number => (state, Sum.inl number)
      | .file word =>
        let (next, texts) := pieces fuel state word
        (next, Sum.inr (String.ofList (texts.flatMap Prod.fst)))
    match next.redirect? mark.stream mark.adds target with
    | some changed => redirected? fuel changed rest
    | none => none

/-- Runs a simple command: leading assignments, then a program or a part of the
shell. -/
def runSimple : Nat → State → List Word → State
  | 0, state, _ => state
  | _, state, [] => state
  | fuel + 1, state, word :: rest =>
    let (next, texts) := pieces fuel state word
    match assignment? (String.ofList (texts.flatMap Prod.fst)) with
    | some (name, value) => runSimple fuel (next.assign name value) rest
    | none =>
      let (ready, words) := expanded fuel state (word :: rest)
      match words with
      | "exec" :: program :: inner => { ready.command (program :: inner) with ended := true }
      | "sh" :: "-c" :: script :: names =>
        let environment := positional names ++ ready.environment
        ready.rejoin (runText fuel { ready with environment := environment } script)
      | _ => ready.command words

/-- Runs a script that is written as a text. -/
def runText : Nat → State → String → State
  | 0, state, _ => state
  | fuel + 1, state, text =>
    match Script.read? text with
    | some script => runScript fuel false state script
    | none => { state.complain 2 "Syntax error" with ended := true }

/-- Runs an action with the streams going where the marks say, and puts them back. -/
def runRedirected : Nat → State → List Redirection → Sum (List Word) Script → Bool → State
  | 0, state, _, _, _ => state
  | fuel + 1, state, marks, action, guarded =>
    match redirected? fuel state marks with
    | none => state.complain 2 "cannot open: No such file"
    | some ready =>
      let done :=
        match action with
        | .inl words => runSimple fuel ready words
        | .inr body => runScript fuel guarded ready body
      let takesInput := marks.any fun mark => mark.stream == 0
      { done with
        outputTo := state.outputTo, errorsTo := state.errorsTo
        input := if takesInput then state.input else done.input }

/-- Runs a script in at most `fuel` steps; a `guarded` one may fail without ending a
strict state. -/
def runScript : Nat → Bool → State → Script → State
  | 0, _, state, _ => state
  | fuel + 1, guarded, state, script =>
    if state.ended then state
    else match script with
      | .nothing => state
      | .simple words marks =>
        if words.map Word.plain? = [some "exec"] then (redirected? fuel state marks).getD state
        else (runRedirected fuel state marks (.inl words) guarded).checked guarded
      | .pipe first second =>
        let writer := runScript fuel true { state with outputTo := .pipe, piped := [] } first
        let reading := { state.rejoin writer with
          outputTo := state.outputTo, piped := state.piped, input := writer.piped }
        let done := state.rejoin (runScript fuel true reading second)
        { done with input := writer.input }.checked guarded
      | .negation inner =>
        let done := runScript fuel true state inner
        { done with status := if done.status = 0 then 1 else 0 }
      | .both first second =>
        let done := runScript fuel true state first
        if done.status = 0 then runScript fuel guarded done second else done
      | .either first second =>
        let done := runScript fuel true state first
        if done.status = 0 then done else runScript fuel guarded done second
      | .sequence first second =>
        runScript fuel guarded (runScript fuel guarded state first) second
      | .choice condition chosen other =>
        let tested := runScript fuel true state condition
        if tested.status = 0 then runScript fuel guarded tested chosen
        else runScript fuel guarded { tested with status := 0 } other
      | .loop goesOn condition body =>
        let tested := runScript fuel true state condition
        if (tested.status == 0) == goesOn then
          runScript fuel guarded (runScript fuel guarded tested body) (.loop goesOn condition body)
        else { tested with status := 0 }
      | .each name words body =>
        let (ready, values) := expanded fuel state words
        runEach fuel guarded ready name values body
      | .group false body marks => runRedirected fuel state marks (.inr body) guarded
      | .group true body marks =>
        (state.rejoin (runRedirected fuel state marks (.inr body) true)).checked guarded

/-- Runs a script once for each value of a variable. -/
def runEach : Nat → Bool → State → String → List String → Script → State
  | 0, _, state, _, _, _ => state
  | _, _, state, _, [], _ => state
  | fuel + 1, guarded, state, name, text :: rest, body =>
    runEach fuel guarded (runScript fuel guarded (state.assign name text) body) name rest body

end

/-- The steps that a script may take. -/
def stepLimit : Nat := 100000

/-- Runs a script with the words behind it. -/
def run (script : String) (words : List String) (invocation : Invocation) : Completion :=
  let state := runText stepLimit
    { environment := positional words ++ invocation.environment
      directory := invocation.directory, files := [], input := invocation.input
      output := [], errors := [], piped := [], outputTo := .output, errorsTo := .errors
      status := 0, strict := false, ended := false, killed := false } script
  ⟨if state.killed then none else some state.status, state.output, state.errors⟩

end Shell

/-- The programs that a build may call: the shell and the small programs. -/
def programs : Toolbox := fun invocation =>
  match programName invocation.program, invocation.arguments with
  | "sh", "-c" :: script :: words => some (Shell.run script words invocation)
  | "sh", "-ec" :: script :: words =>
    some (Shell.run ("set -e\n" ++ script) words invocation)
  | "sh", ["-c"] => some ⟨some 2, [], bytesOf "sh: 0: -c requires an argument\n"⟩
  | "sh", [] =>
    some (Shell.run (Text.ofBytesLenient invocation.input) [] { invocation with input := [] })
  | "sh", file :: _ => some ⟨some 2, [], bytesOf s!"sh: 0: cannot open {file}: No such file\n"⟩
  | "printenv", [name] =>
    some (match invocation.environment.lookup name with
      | some text => wrote (text ++ "\n")
      | none => ended 1)
  | program, arguments =>
    (utility? program arguments invocation.directory invocation.input).map Prod.fst

end EoAssembly.Command
