import EoAssembly.Proofs.Path
import EoAssembly.Text.Blank
import EoAssembly.Text.Lines

/-!
Contract: texts that are put together come apart again in the same places.

A text is cut at its first separator.  A text that starts or ends in another one leaves the
rest.  Lines joined by line feeds are the lines of the text, and words with one space between
them are its words.

Owns `IsWord`, and these laws.
-/

namespace EoAssembly.Text

/-! ## Cutting -/

theorem cut_eq_some {separates : Char → Bool} {text before after : List Char}
    (found : cut separates text = some (before, after)) :
    ∃ c, separates c = true ∧ text = before ++ c :: after := by
  induction text generalizing before with
  | nil => exact absurd found (by simp [cut])
  | cons c rest inductionHypothesis =>
    unfold cut at found
    split at found
    · next here =>
      obtain ⟨rfl, rfl⟩ := Prod.mk.inj (Option.some.inj found)
      exact ⟨c, here, rfl⟩
    · obtain ⟨⟨front, behind⟩, cutRest, same⟩ := Option.map_eq_some_iff.1 found
      obtain ⟨rfl, rfl⟩ := Prod.mk.inj same
      obtain ⟨separator, holds, split⟩ := inductionHypothesis cutRest
      exact ⟨separator, holds, congrArg (c :: ·) split⟩

theorem cut_ne_none {separates : Char → Bool} {text : List Char} {c : Char} (member : c ∈ text)
    (holds : separates c = true) : cut separates text ≠ none := by
  induction text with
  | nil => exact absurd member (by simp)
  | cons first rest inductionHypothesis =>
    unfold cut
    split
    · simp
    · next other =>
      rcases List.mem_cons.1 member with here | later
      · rw [here] at holds
        exact absurd holds other
      · rw [ne_eq, Option.map_eq_none_iff]
        exact inductionHypothesis later

theorem cut_before {separates : Char → Bool} {text before after : List Char}
    (found : cut separates text = some (before, after)) : cut separates before = none := by
  induction text generalizing before with
  | nil => exact absurd found (by simp [cut])
  | cons c rest inductionHypothesis =>
    unfold cut at found
    split at found
    · rw [← (Prod.mk.inj (Option.some.inj found)).1]
      rfl
    · next other =>
      obtain ⟨⟨front, behind⟩, cutRest, same⟩ := Option.map_eq_some_iff.1 found
      obtain ⟨rfl, rfl⟩ := Prod.mk.inj same
      unfold cut
      rw [if_neg other, inductionHypothesis cutRest]
      rfl

theorem cut_append {separates : Char → Bool} {before : List Char} {separator : Char}
    (plain : ∀ c ∈ before, separates c = false) (found : separates separator = true)
    (after : List Char) : cut separates (before ++ separator :: after) = some (before, after) := by
  induction before with
  | nil => simp [cut, found]
  | cons c rest inductionHypothesis =>
    have here := plain c List.mem_cons_self
    have later := inductionHypothesis fun other among => plain other (List.mem_cons_of_mem c among)
    simp [cut, here, later]

/-! ## Starts and ends -/

theorem behind?_append (lead rest : List Char) : behind? lead (lead ++ rest) = some rest := by
  induction lead with
  | nil => rfl
  | cons c lead inductionHypothesis =>
    rw [List.cons_append, behind?, if_pos rfl]
    exact inductionHypothesis

theorem eq_append_of_behind? {lead text rest : List Char} (found : behind? lead text = some rest) :
    text = lead ++ rest := by
  induction lead generalizing text with
  | nil => exact Option.some.inj found
  | cons c lead inductionHypothesis =>
    cases text with
    | nil => exact absurd found (by simp [behind?])
    | cons first others =>
      rw [behind?] at found
      split at found
      · next same =>
        rw [same, inductionHypothesis found]
        rfl
      · exact absurd found (by simp)

/-- A text starts with another one exactly when something is left behind it. -/
theorem dropLead?_eq_some {lead text rest : String} :
    dropLead? lead text = some rest ↔ text = lead ++ rest := by
  unfold dropLead?
  constructor
  · intro found
    obtain ⟨letters, behind, rfl⟩ := Option.map_eq_some_iff.1 found
    apply String.toList_injective
    rw [eq_append_of_behind? behind, String.toList_append, String.toList_ofList]
  · intro same
    rw [same, String.toList_append, behind?_append]
    simp

/-- A text ends in another one exactly when something is left before it. -/
theorem dropTail?_eq_some {tail text front : String} :
    dropTail? tail text = some front ↔ text = front ++ tail := by
  have letters : text = front ++ tail ↔
      text.toList.reverse = tail.toList.reverse ++ front.toList.reverse := by
    rw [← List.reverse_append, List.reverse_inj, ← String.toList_append]
    exact ⟨congrArg String.toList, fun same => String.toList_injective same⟩
  rw [letters]
  unfold dropTail? ahead?
  constructor
  · intro found
    obtain ⟨before, isBefore, rfl⟩ := Option.map_eq_some_iff.1 found
    obtain ⟨reversed, behind, rfl⟩ := Option.map_eq_some_iff.1 isBefore
    rw [eq_append_of_behind? behind, String.toList_ofList, List.reverse_reverse]
  · intro same
    rw [same, behind?_append]
    simp

/-! ## Lines -/

theorem dropCarriage_eq {line : List Char} (plain : line.getLast? ≠ some '\r') :
    dropCarriage line = line := by
  rw [← List.head?_reverse] at plain
  unfold dropCarriage
  split
  · next rest reversed =>
    rw [reversed] at plain
    exact absurd rfl plain
  · rfl

/-- Lines between line feeds, none of which is empty or has a carriage return at its end, are
lines as they stand. -/
theorem linesOfPieces_eq {parts : List (List Char)} (some_ : ∀ part ∈ parts, part ≠ [])
    (plain : ∀ part ∈ parts, part.getLast? ≠ some '\r') : linesOfPieces parts = parts := by
  induction parts with
  | nil => rfl
  | cons part others inductionHypothesis =>
    have here := some_ part List.mem_cons_self
    cases others with
    | nil =>
      unfold linesOfPieces
      rw [if_neg (by simpa using here)]
    | cons second more =>
      have later := inductionHypothesis
        (fun other among => some_ other (List.mem_cons_of_mem part among))
        (fun other among => plain other (List.mem_cons_of_mem part among))
      unfold linesOfPieces
      rw [dropCarriage_eq (plain part List.mem_cons_self), later]

/-- What stands before a first line feed is the first line. -/
theorem lines_cons {line : String} (single : ∀ c ∈ line.toList, c ≠ '\n' ∧ c ≠ '\r')
    (rest : String) : lines (line ++ "\n" ++ rest) = line :: lines rest := by
  have letters : (line ++ "\n" ++ rest).toList = line.toList ++ '\n' :: rest.toList := by simp
  have plain : ∀ c ∈ line.toList, (c == '\n') = false :=
    fun c inside => beq_eq_false_iff_ne.2 (single c inside).1
  have noCarriage : dropCarriage line.toList = line.toList :=
    dropCarriage_eq fun last => (single _ (List.mem_of_getLast? last)).2 rfl
  unfold lines
  rw [letters, pieces_append plain (by decide)]
  cases parts : pieces (· == '\n') rest.toList with
  | nil => exact absurd parts (pieces_ne_nil _ _)
  | cons first others =>
    have step : linesOfPieces (line.toList :: first :: others) =
        dropCarriage line.toList :: linesOfPieces (first :: others) := rfl
    rw [step, noCarriage, List.map_cons, String.ofList_toList]

/-- Lines that are joined are the lines of the text. -/
theorem lines_joinAll {parts : List String} (some_ : ∀ part ∈ parts, part ≠ "")
    (single : ∀ part ∈ parts, ∀ c ∈ part.toList, c ≠ '\n' ∧ c ≠ '\r') :
    lines (joinAll '\n' parts) = parts := by
  cases parts with
  | nil => rfl
  | cons part others =>
    have piecesEq : pieces (· == '\n') (joined '\n' ((part :: others).map String.toList)) =
        (part :: others).map String.toList := by
      apply pieces_joined (by simp)
      intro letters member c inside
      obtain ⟨line, among, rfl⟩ := List.mem_map.1 member
      exact beq_eq_false_iff_ne.2 (single line among c inside).1
    unfold lines joinAll
    rw [String.toList_ofList, piecesEq, linesOfPieces_eq]
    · simp [Function.comp_def]
    · intro letters member empty
      obtain ⟨line, among, rfl⟩ := List.mem_map.1 member
      exact some_ line among (String.toList_injective empty)
    · intro letters member last
      obtain ⟨line, among, rfl⟩ := List.mem_map.1 member
      exact (single line among _ (List.mem_of_getLast? last)).2 rfl

/-! ## Words -/

/-- A text of some characters, none of them blank. -/
structure IsWord (text : String) : Prop where
  some_ : text ≠ ""
  plain : ∀ c ∈ text.toList, isBlank c = false

instance (text : String) : Decidable (IsWord text) :=
  have := List.decidableBAll (fun c => isBlank c = false) text.toList
  decidable_of_iff (text ≠ "" ∧ ∀ c ∈ text.toList, isBlank c = false)
    ⟨fun parts => ⟨parts.1, parts.2⟩, fun word => ⟨word.some_, word.plain⟩⟩

namespace IsWord

variable {text first second : String}

/-- No character of a word is one of those between lines. -/
theorem single (word : IsWord text) : ∀ c ∈ text.toList, c ≠ '\n' ∧ c ≠ '\r' := by
  intro c inside
  have blank := word.plain c inside
  constructor
  · rintro rfl
    exact absurd blank (by decide)
  · rintro rfl
    exact absurd blank (by decide)

theorem words_pair (one : IsWord first) (two : IsWord second) :
    words (first ++ " " ++ second) = [first, second] := by
  have letters : (first ++ " " ++ second).toList = first.toList ++ ' ' :: second.toList := by
    simp
  have notEmpty : ∀ {text : String}, IsWord text → text.toList.isEmpty = false := by
    intro text word
    rw [List.isEmpty_eq_false_iff]
    exact fun empty => word.some_ (String.toList_injective empty)
  unfold words
  rw [letters, pieces_append one.plain (by decide), pieces_of_none two.plain]
  simp [notEmpty one, notEmpty two]

end IsWord

end EoAssembly.Text
