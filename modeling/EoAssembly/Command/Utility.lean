import EoAssembly.Command.Escape
import EoAssembly.Command.Filter
import EoAssembly.Text.Pieces

/-!
Contract: the small programs that write, copy and fail.

Owns:
- the formats of `printf`, and the conditions of `test`;
- `utility?`, which runs one of the programs by name, with the input left for
  the next one.
-/

namespace EoAssembly.Command

/-- The bytes of a format, in at most `fuel` steps, with arguments put in for its
conversions, and the arguments left over. -/
def formatted : Nat → List String → List Char → List UInt8 × List String
  | 0, arguments, _ => ([], arguments)
  | _, arguments, [] => ([], arguments)
  | fuel + 1, arguments, '\\' :: c :: rest =>
    let (escaped, behind) := escape c rest
    let (bytes, left) := formatted fuel arguments behind
    (escaped ++ bytes, left)
  | fuel + 1, arguments, '%' :: c :: rest =>
    if c = '%' then
      let (bytes, left) := formatted fuel arguments rest
      (37 :: bytes, left)
    else
      let (bytes, left) := formatted fuel arguments.tail rest
      (bytesOf (arguments.headD "") ++ bytes, left)
  | fuel + 1, arguments, c :: rest =>
    let (bytes, left) := formatted fuel arguments rest
    (charBytes c ++ bytes, left)

/-- The bytes of a format applied again and again while arguments are left. -/
def repeated : Nat → List Char → List String → List UInt8
  | 0, _, _ => []
  | fuel + 1, format, arguments =>
    let (bytes, left) := formatted (format.length + 1) arguments format
    if left.isEmpty || left.length == arguments.length then bytes
    else bytes ++ repeated fuel format left

/-- The last part of a path text. -/
def baseName (path : String) : String :=
  let parts := (Text.splitAll '/' path).filter fun part => part != ""
  parts.getLastD (if Text.startsWith "/" path then "/" else "")

/-- A program that ends with a status and writes nothing. -/
def ended (status : Nat) : Completion := ⟨some status, [], []⟩

/-- A program that writes a text and ends well. -/
def wrote (text : String) : Completion := ⟨some 0, bytesOf text, []⟩

/-- Whether the arguments of a test hold. -/
def holds : List String → Bool
  | [text] => text != ""
  | ["-n", text] => text != ""
  | ["-z", text] => text == ""
  | [left, "=", right] => left == right
  | [left, "!=", right] => left != right
  | [left, "-eq", right] => left.toInt? == right.toInt?
  | [left, "-ne", right] => left.toInt? != right.toInt?
  | [left, "-lt", right] => less (left.toInt?.getD 0) (right.toInt?.getD 0)
  | [left, "-ge", right] => !less (left.toInt?.getD 0) (right.toInt?.getD 0)
  | [left, "-gt", right] => less (right.toInt?.getD 0) (left.toInt?.getD 0)
  | [left, "-le", right] => !less (right.toInt?.getD 0) (left.toInt?.getD 0)
  | "!" :: rest => !holds rest
  | _ => false
where
  /-- Whether one number is below another. -/
  less (left right : Int) : Bool := decide (left < right)

/-- A path text without its last part. -/
def parentName (path : String) : String :=
  match (Text.splitAll '/' path).dropLast with
  | [] => "."
  | [""] => "/"
  | parts => Text.joinAll '/' parts

/-- More bytes than a reader asks a program without an end for. -/
def endless : Nat := 1048576

/-- The bytes of a program that writes a line over and over. -/
def overAndOver (line : List UInt8) : List UInt8 :=
  (List.replicate (endless / line.length) line).flatten

/-- The numbers from one to another, each on a line. -/
def numberLines (low high : Nat) : String :=
  String.join ((List.range' low (high + 1 - low)).map fun value => s!"{value}\n")

/-- The directories that a path of a program may name. -/
def programDirectories : List String := ["/bin/", "/usr/bin/"]

/-- The name of a program without the directory it is found in. -/
def programName (program : String) : String :=
  (programDirectories.findSome? fun lead => Text.dropLead? lead program).getD program

/-- The completion of a program that does not read its input. -/
def writer? (program : String) (arguments : List String) (directory : String) :
    Option Completion :=
  match program, arguments with
  | "cat", file :: _ =>
    some ⟨some 1, [], bytesOf s!"cat: {file}: No such file or directory\n"⟩
  | "echo", "-n" :: words => some (wrote (Text.joinAll ' ' words))
  | "echo", words => some (wrote (Text.joinAll ' ' words ++ "\n"))
  | "printf", format :: values =>
    some ⟨some 0, repeated (values.length + 1) format.toList values, []⟩
  | "printf", [] => some ⟨some 1, [], bytesOf "printf: missing operand\n"⟩
  | "true", _ => some (ended 0)
  | "false", _ => some (ended 1)
  | "test", arguments => some (ended (if holds arguments then 0 else 1))
  | "[", arguments => some (ended (if holds arguments.dropLast then 0 else 1))
  | "sleep", _ => some (ended 0)
  | "pwd", _ => some (wrote (directory ++ "\n"))
  | "basename", path :: _ => some (wrote (baseName path ++ "\n"))
  | "dirname", path :: _ => some (wrote (parentName path ++ "\n"))
  | "yes", [] => some ⟨some 0, overAndOver (bytesOf "y\n"), []⟩
  | "yes", words => some ⟨some 0, overAndOver (bytesOf (Text.joinAll ' ' words ++ "\n")), []⟩
  | "seq", [high] => some (wrote (numberLines 1 (high.toNat?.getD 0)))
  | "seq", [low, high] =>
    some (wrote (numberLines (low.toNat?.getD 0) (high.toNat?.getD 0)))
  | _, _ => none

/-- Runs a small program: what it leaves behind and the input it leaves unread. -/
def utility? (program : String) (arguments : List String) (directory : String)
    (input : List UInt8) : Option (Completion × List UInt8) :=
  let name := programName program
  match filter? name arguments with
  | some change => some (⟨some 0, change input, []⟩, [])
  | none => (writer? name arguments directory).map fun completion => (completion, input)

end EoAssembly.Command
