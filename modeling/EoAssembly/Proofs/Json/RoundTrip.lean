import EoAssembly.Json.Printer
import EoAssembly.Json.Reader
import Mathlib.Data.List.TakeDrop

/-!
Contract: a written value reads back.

A value is faithful when its numbers are written as natural numbers and no string
in it is ill formed.  What the printer writes for it falls into the tokens of the
value, whatever the indentation, and the reader takes exactly these tokens.

Owns the laws of escapes and of decimal numbers, `Value.Faithful`, `tokensOf`, and
the round trip.
-/

namespace EoAssembly.Json

/-! ## Strings -/

/-- What the reader of strings finds for a character that was written. -/
def pieceOf (c : Char) : StringPiece :=
  if c.toNat < 32 ∧ c ≠ '\n' ∧ c ≠ '\t' ∧ c ≠ '\r' ∧ c ≠ Char.ofNat 8 ∧ c ≠ Char.ofNat 12 then
    .unit c.toNat
  else .plain c

theorem unitOf?_hexDigits : ∀ code < 32, ∃ a b c d, Text.hexDigits 4 code = [a, b, c, d] ∧
    unitOf? [a, b, c, d] = some code := by
  intro code small
  have whole : ∀ code < 32, unitOf? (Text.hexDigits 4 code) = some code := by decide
  exact ⟨_, _, _, _, rfl, whole code small⟩

theorem stringPieces_escape (c : Char) (rest : List Char) :
    stringPieces (escape c ++ rest) =
      (stringPieces rest).map fun found => (pieceOf c :: found.1, found.2) := by
  have short : ∀ letter plain, letter ≠ 'u' → shortEscape? letter = some plain →
      stringPieces ('\\' :: letter :: rest) =
        (stringPieces rest).map fun found => (.plain plain :: found.1, found.2) := by
    intro letter plain notUnit stands
    rw [stringPieces, stands]
    · cases stringPieces rest <;> rfl
    · exact fun _ _ _ _ _ isUnit _ => notUnit isUnit
  unfold escape
  split
  · next same => rw [same]; exact short _ _ (by decide) (by decide)
  split
  · next same => rw [same]; exact short _ _ (by decide) (by decide)
  split
  · next same => rw [same]; exact short _ _ (by decide) (by decide)
  split
  · next same => rw [same]; exact short _ _ (by decide) (by decide)
  split
  · next same => rw [same]; exact short _ _ (by decide) (by decide)
  split
  · next same => rw [same]; exact short _ _ (by decide) (by decide)
  split
  · next same => rw [same]; exact short _ _ (by decide) (by decide)
  split
  · next noEnd noTab noReturn noBack noFeed control =>
    obtain ⟨a, b, d, e, digits, reads⟩ := unitOf?_hexDigits c.toNat control
    have piece : pieceOf c = .unit c.toNat := if_pos ⟨control, noEnd, noTab, noReturn, noBack, noFeed⟩
    rw [digits, piece]
    simp only [List.cons_append, List.nil_append]
    rw [stringPieces, reads]
    cases stringPieces rest <;> rfl
  · next noQuote noSlash _ _ _ _ _ printed =>
    have piece : pieceOf c = .plain c := if_neg fun wrong => printed wrong.1
    rw [piece, List.singleton_append, stringPieces]
    · rw [if_neg noQuote, if_neg (by simp [noSlash, printed])]
      cases stringPieces rest <;> rfl
    · exact fun _ _ _ _ _ same _ => noSlash same
    · exact fun _ _ same _ => noSlash same

theorem stringPieces_text (text rest : List Char) :
    stringPieces (text.flatMap escape ++ '\x22' :: rest) = some (text.map pieceOf, rest) := by
  induction text with
  | nil => simp [stringPieces]
  | cons c others inductionHypothesis =>
    rw [List.flatMap_cons, List.append_assoc, stringPieces_escape, inductionHypothesis]
    rfl

theorem charactersOf_pieces (text : List Char) :
    charactersOf (text.map pieceOf) = some text := by
  induction text with
  | nil => rfl
  | cons c rest inductionHypothesis =>
    rw [List.map_cons]
    by_cases control : c.toNat < 32 ∧ c ≠ '\n' ∧ c ≠ '\t' ∧ c ≠ '\r' ∧ c ≠ Char.ofNat 8 ∧
        c ≠ Char.ofNat 12
    · -- no control character is half of a pair
      have notHigh : isHighHalf c.toNat = false := by
        have small := control.1
        simp only [isHighHalf, Bool.and_eq_false_iff, decide_eq_false_iff_not]
        omega
      have notLow : isLowHalf c.toNat = false := by
        have small := control.1
        simp only [isLowHalf, Bool.and_eq_false_iff, decide_eq_false_iff_not]
        omega
      have piece : pieceOf c = .unit c.toNat := if_pos control
      rw [piece]
      unfold charactersOf
      split
      · next same => exact absurd same (by simp)
      · next same => exact absurd (List.cons.inj same).1 (by simp)
      · next high low others same =>
        obtain ⟨first, later⟩ := List.cons.inj same
        rw [← StringPiece.unit.inj first, ← later, notHigh, notLow, inductionHypothesis]
        simp
      · next code others _ same =>
        obtain ⟨first, later⟩ := List.cons.inj same
        rw [← StringPiece.unit.inj first, ← later, notHigh, notLow, inductionHypothesis]
        simp
    · have piece : pieceOf c = .plain c := if_neg control
      rw [piece, charactersOf, inductionHypothesis]
      rfl

/-- A quoted string is one token. -/
theorem token?_quoted (text : String) (rest : List Char) :
    token? (quoted text ++ rest) = some (.string (some text), rest) := by
  unfold quoted token?
  simp only [List.cons_append, List.append_assoc, List.nil_append, stringPieces_text,
    charactersOf_pieces, Option.map_some, String.ofList_toList]

/-! ## Numbers -/

/-- What follows a value in a text that was written: nothing, a comma or a line end. -/
def Ends (rest : List Char) : Prop := rest = [] ∨ ∃ c behind, rest = c :: behind ∧ (c = ',' ∨ c = '\n')

theorem Ends.comma {rest : List Char} : Ends (',' :: rest) := Or.inr ⟨',', rest, rfl, Or.inl rfl⟩

theorem Ends.newLine {level : Nat} {rest : List Char} : Ends (newLine level ++ rest) :=
  Or.inr ⟨'\n', _, rfl, Or.inr rfl⟩

theorem toDigits_first {n : Nat} (some_ : 0 < n) :
    ∃ c rest, Nat.toDigits 10 n = c :: rest ∧ c ≠ '0' := by
  induction n using Nat.strongRecOn with
  | ind n inductionHypothesis =>
    rcases Nat.lt_or_ge n 10 with small | large
    · have digits : ∀ n < 10, 0 < n → n.digitChar ≠ '0' := by decide
      exact ⟨_, [], Nat.toDigits_of_lt_base small, digits n small some_⟩
    · obtain ⟨c, rest, split, notZero⟩ :=
        inductionHypothesis (n / 10) (by omega) (by omega)
      rw [Nat.toDigits_of_base_le (by omega) large, split]
      exact ⟨c, rest ++ [_], rfl, notZero⟩

theorem span_digits {digits rest : List Char} (all : ∀ c ∈ digits, c.isDigit = true)
    (ends : Ends rest) : (digits ++ rest).span Char.isDigit = (digits, rest) := by
  rw [List.span_eq_takeWhile_dropWhile, List.takeWhile_append_of_pos all,
    List.dropWhile_append_of_pos all]
  rcases ends with rfl | ⟨c, behind, rfl, rfl | rfl⟩
  · simp
  · simp
  · simp

theorem number?_natural (n : Nat) {rest : List Char} (ends : Ends rest) :
    number? ((toString n).toList ++ rest) = some ((toString n).toList, rest) := by
  rw [Nat.toString_eq_ofList_toDigits, String.toList_ofList]
  have digit : ∀ c ∈ Nat.toDigits 10 n, c.isDigit = true := fun c member =>
    Nat.isDigit_of_mem_toDigits (by decide) (by decide) member
  have whole : wholePart? (Nat.toDigits 10 n ++ rest) = some (Nat.toDigits 10 n, rest) := by
    rcases Nat.eq_zero_or_pos n with zero | some_
    · rw [zero, Nat.toDigits_zero]
      rfl
    · obtain ⟨c, others, split, notZero⟩ := toDigits_first some_
      rw [split] at digit ⊢
      rw [List.cons_append, wholePart?]
      · unfold someDigits?
        rw [← List.cons_append, span_digits digit ends]
      · exact fun _ same => notZero (List.cons.inj same).1
  have noFraction : fraction? rest = some ([], rest) := by
    rcases ends with rfl | ⟨c, behind, rfl, rfl | rfl⟩ <;> rfl
  have noExponent : exponent? rest = some ([], rest) := by
    rcases ends with rfl | ⟨c, behind, rfl, rfl | rfl⟩
    · rfl
    · cases behind <;> rfl
    · cases behind <;> rfl
  have unsigned : ∀ behind, Nat.toDigits 10 n ++ rest ≠ '-' :: behind := by
    intro behind same
    obtain ⟨c, others, split⟩ := List.exists_cons_of_ne_nil (Nat.toDigits_ne_nil (n := n) (b := 10))
    rw [split] at same digit
    rw [(List.cons.inj same).1] at digit
    exact absurd (digit '-' List.mem_cons_self) (by decide)
  unfold number?
  split
  next sign digits same =>
    split at same
    · next behind isSigned => exact absurd isSigned (unsigned behind)
    · obtain ⟨rfl, rfl⟩ := Prod.mk.inj same
      simp [whole, noFraction, noExponent]

/-- A natural number is one token. -/
theorem token?_natural (n : Nat) {rest : List Char} (ends : Ends rest) :
    token? ((toString n).toList ++ rest) = some (.number (toString n), rest) := by
  have number := number?_natural n ends
  have digit : ∀ c ∈ Nat.toDigits 10 n, c.isDigit = true := fun c member =>
    Nat.isDigit_of_mem_toDigits (by decide) (by decide) member
  obtain ⟨c, others, split⟩ : ∃ c others, (toString n).toList = c :: others := by
    rw [Nat.toString_eq_ofList_toDigits, String.toList_ofList]
    exact List.exists_cons_of_ne_nil Nat.toDigits_ne_nil
  have isDigit : c.isDigit = true := by
    refine digit c ?_
    rw [Nat.toString_eq_ofList_toDigits, String.toList_ofList] at split
    rw [split]
    exact List.mem_cons_self
  have apart : ∀ other : Char, other.isDigit = false → c ≠ other := by
    intro other noDigit same
    rw [same, noDigit] at isDigit
    exact absurd isDigit (by simp)
  rw [split] at number ⊢
  rw [List.cons_append] at number ⊢
  unfold token?
  split <;> first
    | (next same => exact absurd (List.cons.inj same).1 (apart _ (by decide)))
    | (rw [number, Option.map_some, ← split, String.ofList_toList])

theorem natural?_toString (n : Nat) :
    Value.natural? (toString n) = if n < UInt64.size then some n else none := by
  have digit : (toString n).toList.all Char.isDigit = true := by
    rw [Nat.toString_eq_ofList_toDigits, String.toList_ofList, List.all_eq_true]
    exact fun c member => Nat.isDigit_of_mem_toDigits (by decide) (by decide) member
  have value : Value.decimal (toString n).toList = n := by
    rw [Nat.toString_eq_ofList_toDigits, String.toList_ofList]
    have counted := Nat.ofDigitChars_ten_toDigits (n := n)
    rw [Nat.ofDigitChars_eq_foldl] at counted
    simp only [Nat.mul_comm 10] at counted
    exact counted
  unfold Value.natural?
  simp only [digit, value, true_and]

/-! ## Tokens -/

mutual

/-- A value whose numbers are natural and whose strings are all well formed. -/
def Value.Faithful : Value → Prop
  | .number literal => ∃ n : Nat, literal = toString n
  | .illFormed => False
  | .array items => FaithfulItems items
  | .object members => FaithfulMembers members
  | .null => True
  | .bool _ => True
  | .string _ => True

/-- Faithful values, one after the other. -/
def FaithfulItems : List Value → Prop
  | [] => True
  | value :: others => value.Faithful ∧ FaithfulItems others

/-- Members with faithful values. -/
def FaithfulMembers : List (String × Value) → Prop
  | [] => True
  | (_, value) :: others => value.Faithful ∧ FaithfulMembers others

end

mutual

/-- The tokens of a value. -/
def tokensOf : Value → List Token
  | .null => [.null]
  | .bool value => [.bool value]
  | .number literal => [.number literal]
  | .string text => [.string (some text)]
  | .illFormed => [.null]
  | .array [] => [.openArray, .closeArray]
  | .array (first :: others) => .openArray :: tokensOf first ++ tokensOfItems others ++ [.closeArray]
  | .object [] => [.openObject, .closeObject]
  | .object ((key, value) :: others) =>
    .openObject :: .string (some key) :: .colon :: tokensOf value ++ tokensOfMembers others
      ++ [.closeObject]

/-- The tokens of the items behind the first one. -/
def tokensOfItems : List Value → List Token
  | [] => []
  | value :: others => .comma :: tokensOf value ++ tokensOfItems others

/-- The tokens of the members behind the first one. -/
def tokensOfMembers : List (String × Value) → List Token
  | [] => []
  | (key, value) :: others =>
    .comma :: .string (some key) :: .colon :: tokensOf value ++ tokensOfMembers others

end

/-- A text falls into tokens, however many steps more are left. -/
def FallsInto (text : List Char) (found : List Token) : Prop :=
  ∀ fuel, text.length ≤ fuel → tokensWithin fuel text = some found

theorem FallsInto.nil : FallsInto [] [] := fun _ _ => by unfold tokensWithin; rfl

theorem FallsInto.blank {c : Char} {rest : List Char} {found : List Token} (quiet : isBlank c = true)
    (falls : FallsInto rest found) : FallsInto (c :: rest) found := by
  intro fuel enough
  cases fuel with
  | zero => exact absurd enough (by simp)
  | succ less =>
    rw [tokensWithin, if_pos quiet]
    exact falls less (Nat.le_of_succ_le_succ enough)

theorem FallsInto.newLine {level : Nat} {rest : List Char} {found : List Token}
    (falls : FallsInto rest found) : FallsInto (newLine level ++ rest) found := by
  have spaces : ∀ count, FallsInto (List.replicate count ' ' ++ rest) found := by
    intro count
    induction count with
    | zero => exact falls
    | succ less inductionHypothesis => exact .blank (by decide) inductionHypothesis
  exact .blank (by decide) (spaces (2 * level))

/-- A token that starts a text, and what the text behind it falls into. -/
theorem FallsInto.token {behind : List Char} {token : Token} {found : List Token} (c : Char)
    (rest : List Char) (loud : isBlank c = false)
    (reads : token? (c :: rest ++ behind) = some (token, behind)) (falls : FallsInto behind found) :
    FallsInto (c :: rest ++ behind) (token :: found) := by
  intro fuel enough
  rw [List.cons_append] at reads enough ⊢
  cases fuel with
  | zero => exact absurd enough (by simp)
  | succ less =>
    have shorter : behind.length ≤ less := by
      simp only [List.length_cons, List.length_append] at enough
      omega
    rw [tokensWithin, if_neg (by simp [loud]), reads]
    simp only [falls less shorter, Option.map_some]

theorem FallsInto.quoted {text : String} {behind : List Char} {found : List Token}
    (falls : FallsInto behind found) :
    FallsInto (quoted text ++ behind) (.string (some text) :: found) :=
  .token _ _ (by decide) (token?_quoted text behind) falls

/-- A mark of one character. -/
theorem FallsInto.mark {c : Char} {behind : List Char} {token : Token} {found : List Token}
    (loud : isBlank c = false) (reads : token? (c :: behind) = some (token, behind))
    (falls : FallsInto behind found) : FallsInto (c :: behind) (token :: found) :=
  .token c [] loud reads falls

theorem FallsInto.natural {n : Nat} {behind : List Char} {found : List Token} (ends : Ends behind)
    (falls : FallsInto behind found) :
    FallsInto ((toString n).toList ++ behind) (.number (toString n) :: found) := by
  obtain ⟨c, others, split⟩ : ∃ c others, Nat.toDigits 10 n = c :: others :=
    List.exists_cons_of_ne_nil Nat.toDigits_ne_nil
  have isDigit : c.isDigit = true := by
    refine Nat.isDigit_of_mem_toDigits (b := 10) (n := n) (by decide) (by decide) ?_
    rw [split]
    exact List.mem_cons_self
  have loud : isBlank c = false := by
    have apart : ∀ other : Char, other.isDigit = false → (c == other) = false := by
      intro other noDigit
      rw [beq_eq_false_iff_ne]
      intro same
      rw [same, noDigit] at isDigit
      exact absurd isDigit (by simp)
    simp only [isBlank, apart ' ' (by decide), apart '\n' (by decide), apart '\t' (by decide),
      apart '\r' (by decide), Bool.or_self]
  have chars : (toString n).toList = c :: others := by
    rw [Nat.toString_eq_ofList_toDigits, String.toList_ofList, split]
  have reads := token?_natural n ends
  rw [chars] at reads ⊢
  exact .token c others loud reads falls

mutual

/-- What is written for a value falls into the tokens of the value. -/
theorem fallsInto_written {level : Nat} {behind : List Char} {found : List Token} :
    ∀ value : Value, value.Faithful → Ends behind → FallsInto behind found →
      FallsInto (written level value ++ behind) (tokensOf value ++ found)
  | .null, _, _, falls => .token 'n' ['u', 'l', 'l'] (by decide) rfl falls
  | .bool true, _, _, falls => .token 't' ['r', 'u', 'e'] (by decide) rfl falls
  | .bool false, _, _, falls => .token 'f' ['a', 'l', 's', 'e'] (by decide) rfl falls
  | .number literal, faithful, ends, falls => by
    obtain ⟨n, rfl⟩ := faithful
    exact .natural ends falls
  | .string text, _, _, falls => .quoted falls
  | .illFormed, faithful, _, _ => faithful.elim
  | .array [], _, _, falls => .mark (by decide) rfl (.mark (by decide) rfl falls)
  | .array (first :: others), faithful, ends, falls => by
    simp only [written, tokensOf, List.cons_append, List.append_assoc, List.nil_append]
    refine .mark (by decide) rfl (.newLine ?_)
    refine fallsInto_written first faithful.1 ?_ ?_
    · cases others with
      | nil => exact .newLine
      | cons second more => exact .comma
    · exact fallsInto_writtenItems others faithful.2 .newLine
        (.newLine (.mark (by decide) rfl falls))
  | .object [], _, _, falls => .mark (by decide) rfl (.mark (by decide) rfl falls)
  | .object ((key, value) :: others), faithful, ends, falls => by
    simp only [written, tokensOf, List.cons_append, List.append_assoc, List.nil_append]
    refine .mark (by decide) rfl (.newLine (.quoted ?_))
    refine .mark (by decide) rfl (.blank (by decide) ?_)
    refine fallsInto_written value faithful.1 ?_ ?_
    · cases others with
      | nil => exact .newLine
      | cons second more => exact .comma
    · exact fallsInto_writtenMembers others faithful.2 .newLine
        (.newLine (.mark (by decide) rfl falls))

theorem fallsInto_writtenItems {level : Nat} {behind : List Char} {found : List Token} :
    ∀ items : List Value, FaithfulItems items → Ends behind → FallsInto behind found →
      FallsInto (writtenItems level items ++ behind) (tokensOfItems items ++ found)
  | [], _, _, falls => falls
  | value :: others, faithful, ends, falls => by
    simp only [writtenItems, tokensOfItems, List.cons_append, List.append_assoc]
    refine .mark (by decide) rfl (.newLine ?_)
    refine fallsInto_written value faithful.1 ?_ (fallsInto_writtenItems others faithful.2 ends falls)
    cases others with
    | nil => exact ends
    | cons second more => exact .comma

theorem fallsInto_writtenMembers {level : Nat} {behind : List Char} {found : List Token} :
    ∀ members : List (String × Value), FaithfulMembers members → Ends behind →
      FallsInto behind found →
      FallsInto (writtenMembers level members ++ behind) (tokensOfMembers members ++ found)
  | [], _, _, falls => falls
  | (key, value) :: others, faithful, ends, falls => by
    simp only [writtenMembers, tokensOfMembers, List.cons_append, List.append_assoc,
      List.nil_append]
    refine .mark (by decide) rfl (.newLine (.quoted ?_))
    refine .mark (by decide) rfl (.blank (by decide) ?_)
    refine fallsInto_written value faithful.1 ?_
      (fallsInto_writtenMembers others faithful.2 ends falls)
    cases others with
    | nil => exact ends
    | cons second more => exact .comma

end

/-! ## Values -/

theorem tokensOf_starts (value : Value) :
    ∃ token rest, tokensOf value = token :: rest ∧ token ≠ .closeArray := by
  cases value with
  | array items => cases items <;> exact ⟨_, _, rfl, by simp⟩
  | object members =>
    cases members with
    | nil => exact ⟨_, _, rfl, by simp⟩
    | cons member others => exact ⟨_, _, rfl, by simp⟩
  | _ => exact ⟨_, _, rfl, by simp⟩

mutual

/-- The tokens of a value read back, when two units of fuel are there for each. -/
theorem valueFrom_tokensOf (rest : List Token) :
    ∀ (value : Value) (fuel : Nat), value.Faithful → 2 * (tokensOf value).length ≤ fuel →
      valueFrom fuel (tokensOf value ++ rest) = some (value, rest)
  | value, 0, _, enough => by
    obtain ⟨token, others, split, _⟩ := tokensOf_starts value
    rw [split] at enough
    exact absurd enough (by simp)
  | .null, fuel + 1, _, _ => rfl
  | .bool _, fuel + 1, _, _ => rfl
  | .number _, fuel + 1, _, _ => rfl
  | .string _, fuel + 1, _, _ => rfl
  | .illFormed, fuel + 1, faithful, _ => faithful.elim
  | .array [], fuel + 1, _, _ => rfl
  | .array (first :: others), fuel + 1, faithful, enough => by
    obtain ⟨token, behind, split, open_⟩ := tokensOf_starts first
    simp only [tokensOf, List.length_cons, List.length_append, List.length_nil] at enough
    have items := itemsFrom_tokensOf rest first others fuel faithful (by omega)
    simp only [tokensOf, List.cons_append, List.append_assoc, List.nil_append, valueFrom]
    rw [items]
    -- what follows the opening bracket is no closing one
    split
    · next later same =>
      rw [split] at same
      exact absurd (List.cons.inj same).1 open_
    · rfl
  | .object [], fuel + 1, _, _ => rfl
  | .object ((key, value) :: others), fuel + 1, faithful, enough => by
    simp only [tokensOf, List.length_cons, List.length_append, List.length_nil] at enough
    have members := membersFrom_tokensOf rest key value others fuel faithful (by omega)
    simp only [tokensOf, List.cons_append, List.append_assoc, List.nil_append, valueFrom]
    rw [members]
    rfl

theorem itemsFrom_tokensOf (rest : List Token) :
    ∀ (value : Value) (others : List Value) (fuel : Nat),
      value.Faithful ∧ FaithfulItems others →
      2 * ((tokensOf value).length + (tokensOfItems others).length) + 1 ≤ fuel →
      itemsFrom fuel (tokensOf value ++ (tokensOfItems others ++ .closeArray :: rest)) =
        some (value :: others, rest)
  | value, others, 0, _, enough => absurd enough (by simp)
  | value, [], fuel + 1, faithful, enough => by
    simp only [tokensOfItems, List.length_nil, List.nil_append] at enough ⊢
    rw [itemsFrom, valueFrom_tokensOf _ value fuel faithful.1 (by omega)]
  | value, second :: more, fuel + 1, faithful, enough => by
    simp only [tokensOfItems, List.length_cons, List.length_append, List.cons_append,
      List.append_assoc] at enough ⊢
    rw [itemsFrom, valueFrom_tokensOf _ value fuel faithful.1 (by omega)]
    simp only
    rw [itemsFrom_tokensOf rest second more fuel faithful.2 (by omega)]
    rfl

theorem membersFrom_tokensOf (rest : List Token) :
    ∀ (key : String) (value : Value) (others : List (String × Value)) (fuel : Nat),
      value.Faithful ∧ FaithfulMembers others →
      2 * ((tokensOf value).length + (tokensOfMembers others).length) + 1 ≤ fuel →
      membersFrom fuel (.string (some key) :: .colon ::
        (tokensOf value ++ (tokensOfMembers others ++ .closeObject :: rest))) =
        some ((key, value) :: others, rest)
  | key, value, others, 0, _, enough => absurd enough (by simp)
  | key, value, [], fuel + 1, faithful, enough => by
    simp only [tokensOfMembers, List.length_nil, List.nil_append] at enough ⊢
    rw [membersFrom, valueFrom_tokensOf _ value fuel faithful.1 (by omega)]
  | key, value, (name, next) :: more, fuel + 1, faithful, enough => by
    simp only [tokensOfMembers, List.length_cons, List.length_append, List.cons_append,
      List.append_assoc] at enough ⊢
    rw [membersFrom, valueFrom_tokensOf _ value fuel faithful.1 (by omega)]
    simp only
    rw [membersFrom_tokensOf rest name next more fuel faithful.2 (by omega)]
    rfl

end

/-- A faithful value is what its written form reads back as. -/
theorem Value.ofText?_render {value : Value} (faithful : value.Faithful) :
    Value.ofText? value.render = some value := by
  have falls : FallsInto (written 0 value ++ []) (tokensOf value ++ []) :=
    fallsInto_written value faithful (Or.inl rfl) .nil
  rw [List.append_nil, List.append_nil] at falls
  have found : tokens value.render = some (tokensOf value) := by
    unfold tokens Value.render
    rw [String.toList_ofList]
    exact falls _ (Nat.le_refl _)
  have reads := valueFrom_tokensOf [] value (3 * (tokensOf value).length + 1) faithful
    (by omega)
  rw [List.append_nil] at reads
  unfold Value.ofText?
  rw [found]
  simp only [reads]

end EoAssembly.Json
