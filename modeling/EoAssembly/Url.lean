import EoAssembly.Text.Hex
import EoAssembly.Text.Pieces
import EoAssembly.Text.Utf8

/-!
Contract: which texts are absolute URLs.

A URL starts with a scheme.  The schemes of the web need a host, behind any
number of slashes; a file may have one; any other scheme has an authority only
behind two slashes, and else may go on with anything.

Owns:
- the hosts: names, numbers of the fourth and of the sixth version of the
  internet protocol;
- `Url.wellFormed`.
-/

namespace EoAssembly.Url

/-- The rules that a scheme follows. -/
inductive Kind where
  | web
  | file
  | other
  deriving DecidableEq

/-- The rules of a scheme. -/
def kindOf (scheme : String) : Kind :=
  if scheme = "file" then .file
  else if ["http", "https", "ws", "wss", "ftp"].contains scheme then .web
  else .other

/-- Whether a character is dropped wherever it stands. -/
def isDropped (c : Char) : Bool := c == '\t' || c == '\n' || c == '\r'

/-- Whether a character is dropped at the ends of a text. -/
def isEdge (c : Char) : Bool := c.toNat ≤ 32

/-- A text without the characters that do not count. -/
def essential (text : List Char) : List Char :=
  (((text.dropWhile isEdge).reverse.dropWhile isEdge).reverse).filter fun c => !isDropped c

/-- The scheme of a text in lower case, and what follows its colon. -/
def schemeOf? (text : List Char) : Option (String × List Char) :=
  match text.span fun c => c.isAlphanum || c == '+' || c == '-' || c == '.' with
  | (first :: others, ':' :: behind) =>
    if first.isAlpha then some (String.ofList ((first :: others).map Char.toLower), behind)
    else none
  | _ => none

/-- Whether a character ends an authority. -/
def endsAuthority (kind : Kind) (c : Char) : Bool :=
  c == '/' || c == '?' || c == '#' || (kind != .other && c == '\\')

/-- Characters that no host may hold. -/
def isForbidden (c : Char) : Bool :=
  c.toNat == 0 || "\t\n\r #/:<>?@[\\]^|".toList.contains c

/-- Characters that no name of a web host may hold. -/
def isForbiddenInName (c : Char) : Bool :=
  isForbidden c || c.toNat < 32 || c == '%' || c.toNat == 127

/-- Bytes with the escapes of two digits behind a percent sign replaced. -/
def unescaped : List UInt8 → List UInt8
  | 37 :: high :: low :: rest =>
    match Text.hexValue? (Char.ofNat high.toNat), Text.hexValue? (Char.ofNat low.toNat) with
    | some upper, some lower => UInt8.ofNat (upper * 16 + lower) :: unescaped rest
    | _, _ => 37 :: unescaped (high :: low :: rest)
  | byte :: rest => byte :: unescaped rest
  | [] => []

/-- The value of digits of a base. -/
def valueIn? (base : Nat) (digits : List Char) : Option Nat :=
  digits.foldlM (fun value digit =>
    match Text.hexValue? digit with
    | some next => if next < base then some (value * base + next) else none
    | none => none) 0

/-- A part of a number of the fourth version. -/
def part4? (text : List Char) : Option Nat :=
  match text with
  | [] => none
  | ['0'] => some 0
  | '0' :: x :: digits =>
    if x = 'x' ∨ x = 'X' then valueIn? 16 digits else valueIn? 8 (x :: digits)
  | digits => valueIn? 10 digits

/-- The parts of a host between dots, without an empty one at the end. -/
def labelsOf (host : List Char) : List (List Char) :=
  let labels := Text.pieces (· == '.') host
  if labels.length > 1 ∧ labels.getLast? = some [] then labels.dropLast else labels

/-- Whether the last part of a host is a number. -/
def endsInNumber (host : List Char) : Bool :=
  match (labelsOf host).getLast? with
  | none => false
  | some last =>
    (!last.isEmpty && last.all Char.isDigit) ||
      (match last with
        | '0' :: x :: digits => (x == 'x' || x == 'X') && (valueIn? 16 digits).isSome
        | _ => false)

/-- Whether parts are a number of the fourth version: all but the last take one
byte, and the last one takes the rest. -/
def partsFit : Nat → List Nat → Bool
  | _, [] => false
  | bytes, [last] => last < 256 ^ bytes
  | bytes, first :: others => first < 256 && partsFit (bytes - 1) others

/-- Whether a host is a number of the fourth version. -/
def isNumber4 (host : List Char) : Bool :=
  let labels := labelsOf host
  labels.length ≤ 4 &&
    (match labels.mapM part4? with
      | some parts => partsFit 4 parts
      | none => false)

/-- Whether a group of digits is a piece of a number of the sixth version. -/
def isPiece6 (text : List Char) : Bool :=
  !text.isEmpty && text.length ≤ 4 && (valueIn? 16 text).isSome

/-- Whether a text is a plain number of the fourth version at the end of one of
the sixth. -/
def isTail4 (text : List Char) : Bool :=
  let labels := Text.pieces (· == '.') text
  labels.length == 4 && labels.all fun label =>
    !label.isEmpty && label.all Char.isDigit && (label.length == 1 || label.head? != some '0')
      && (valueIn? 10 label).any fun value => value < 256

/-- The number of pieces that groups make; the last group may be a number of the
fourth version, which makes two. -/
def piecesIn? : List (List Char) → Option Nat
  | [] => some 0
  | [last] =>
    if isPiece6 last then some 1 else if isTail4 last then some 2 else none
  | group :: others =>
    if isPiece6 group then (piecesIn? others).map (· + 1) else none

/-- The number of pieces of a part of a number of the sixth version. -/
def piecesOf? (text : List Char) : Option Nat :=
  if text.isEmpty then some 0 else piecesIn? (Text.pieces (· == ':') text)

/-- The texts before and after the first two colons in a row. -/
def cutAtGap : List Char → Option (List Char × List Char)
  | ':' :: ':' :: rest => some ([], rest)
  | c :: rest => (cutAtGap rest).map fun found => (c :: found.1, found.2)
  | [] => none

/-- Whether a text is a number of the sixth version. -/
def isNumber6 (text : List Char) : Bool :=
  match cutAtGap text with
  | none => piecesOf? text == some 8
  | some (before, behind) =>
    match Text.occurs ['.'] before, piecesOf? before, piecesOf? behind with
    | false, some left, some right => left + right ≤ 7
    | _, _, _ => false

/-- A host between brackets. -/
def bracketed? (host : List Char) : Option Bool :=
  match host with
  | '[' :: inner =>
    some (inner.getLast? == some ']' && isNumber6 inner.dropLast)
  | _ => none

/-- Whether a host may stand behind a scheme of the web. -/
def isWebHost (host : List Char) : Bool :=
  match bracketed? host with
  | some answer => answer
  | none =>
    match Text.ofUtf8? (unescaped (String.ofList host).toUTF8.toList) with
    | none => false
    | some name =>
      let chars := name.toList
      !chars.isEmpty && !chars.any isForbiddenInName
        && (!endsInNumber chars || isNumber4 chars)

/-- Whether a host may stand behind any other scheme. -/
def isOtherHost (host : List Char) : Bool :=
  match bracketed? host with
  | some answer => answer
  | none => !host.any isForbidden

/-- What follows the last at sign of an authority, and whether there is one. -/
def behindUser (authority : List Char) : Bool × List Char × List Char :=
  match authority.reverse.span (· != '@') with
  | (_, []) => (false, [], authority)
  | (host, _ :: user) => (true, user.reverse, host.reverse)

/-- The host of an authority, and what follows it: a colon outside of brackets
starts the number of a service. -/
def hostFrom : Bool → List Char → List Char × List Char
  | _, [] => ([], [])
  | inBrackets, c :: rest =>
    if c = ':' ∧ !inBrackets then ([], c :: rest)
    else
      let next := if c = '[' then true else if c = ']' then false else inBrackets
      let (host, behind) := hostFrom next rest
      (c :: host, behind)

/-- Whether what follows a host is nothing or the number of a service. -/
def isServiceNumber : List Char → Bool
  | [] => true
  | _ :: digits =>
    digits.all Char.isDigit && (valueIn? 10 digits).any fun value => value < 65536

/-- Whether what stands before an at sign names a user or a password. -/
def namesUser (user : List Char) : Bool := !user.isEmpty && user != [':']

/-- Whether the authority that a text starts with is well formed.  Without a host
there is neither a user nor such a number, and an at sign that comes first must not be the
whole authority of a longer text. -/
def isAuthority (kind : Kind) (text : List Char) : Bool :=
  let authority := text.takeWhile fun c => !endsAuthority kind c
  let (marked, user, place) := behindUser authority
  let (host, service) := hostFrom false place
  let named := if kind = .web then isWebHost host else isOtherHost host
  let lone := marked && user.isEmpty && place.isEmpty && authority.length < text.length
  let empty := host.isEmpty && (kind == .web || !service.isEmpty || namesUser user || lone)
  !empty && named && isServiceNumber service

/-- Whether what follows the scheme of a file is well formed. -/
def isFileRest (rest : List Char) : Bool :=
  match rest with
  | first :: second :: behind =>
    if (first == '/' || first == '\\') && (second == '/' || second == '\\') then
      let host := behind.takeWhile fun c => !endsAuthority .file c
      let drive := host.length == 2 && (host.head?.any Char.isAlpha)
        && (host.getLast? == some ':' || host.getLast? == some '|')
      host.isEmpty || drive || isWebHost host
    else true
  | _ => true

/-- Whether a text is an absolute URL. -/
def wellFormed (text : String) : Bool :=
  match schemeOf? (essential text.toList) with
  | none => false
  | some (scheme, rest) =>
    match kindOf scheme with
    | .file => isFileRest rest
    | .web =>
      let authority := rest.dropWhile fun c => c == '/' || c == '\\'
      isAuthority .web authority
    | .other =>
      match Text.behind? ['/', '/'] rest with
      | some authority => isAuthority .other authority
      | none => true

end EoAssembly.Url
