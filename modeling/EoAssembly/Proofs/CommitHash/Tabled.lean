import EoAssembly.CommitHash.Table
import EoAssembly.Proofs.Text

/-!
Contract: what a commit hash table says of a tag.

A text is a table when every line of it that isn't blank has two words.  The table then has
one entry for each second word, and gives it the first seven characters of the hash in the
last row that has it.

Owns `HashTable.tagIn?`, `HashTable.lastHash?` and these laws.
-/

namespace EoAssembly

namespace CommitHash

variable {hash : String}

theorem narrow_ok (long : shortLength ≤ hash.toList.length) :
    narrow hash = .ok (String.ofList (hash.toList.take shortLength)) := by
  have whole : (hash.toList.take shortLength).length = shortLength := by
    rw [List.length_take]
    omega
  unfold narrow
  simp only [if_pos whole]

theorem narrow_error (short : hash.toList.length < shortLength) :
    narrow hash = .error (tooShort hash) := by
  have part : (hash.toList.take shortLength).length ≠ shortLength := by
    rw [List.length_take]
    omega
  unfold narrow
  simp only [if_neg part]

/-- A hash that was narrowed was long enough. -/
theorem of_narrow_ok {short : String} (narrowed : narrow hash = .ok short) :
    shortLength ≤ hash.toList.length ∧ short = String.ofList (hash.toList.take shortLength) := by
  by_cases long : shortLength ≤ hash.toList.length
  · rw [narrow_ok long] at narrowed
    exact ⟨long, (Except.ok.inj narrowed).symm⟩
  · rw [narrow_error (by omega)] at narrowed
    exact absurd narrowed (by simp)

end CommitHash

namespace HashTable

variable {table next : HashTable} {tag other hash line text : String} {lines : List String}

/-! ## Rows -/

/-- The tag that a line gives a hash to. -/
def tagIn? (line : String) : Option String :=
  match Text.words line with
  | _ :: tag :: _ => some tag
  | _ => none

/-- The hash that a line gives to a tag. -/
def hashIn? (tag line : String) : Option String :=
  match Text.words line with
  | hash :: other :: _ => if other = tag then some hash else none
  | _ => none

/-- The hash that the last line with a tag gives to it. -/
def lastHash? (tag : String) (lines : List String) : Option String :=
  lines.reverse.findSome? (hashIn? tag)

theorem lastHash?_cons (tag line : String) (lines : List String) :
    lastHash? tag (line :: lines) = (lastHash? tag lines).or (hashIn? tag line) := by
  unfold lastHash?
  rw [List.reverse_cons, List.findSome?_append]
  simp

theorem lastHash?_isSome :
    (lastHash? tag lines).isSome ↔ ∃ line ∈ lines, tagIn? line = some tag := by
  have tells : ∀ line, (hashIn? tag line).isSome ↔ tagIn? line = some tag := by
    intro line
    unfold hashIn? tagIn?
    split <;> simp [Option.isSome_ite]
  unfold lastHash?
  rw [List.findSome?_isSome_iff]
  simp only [List.mem_reverse, tells]

theorem hashIn?_of_words {rest : List String} (words : Text.words line = hash :: other :: rest) :
    hashIn? tag line = if other = tag then some hash else none := by
  unfold hashIn?
  rw [words]

theorem tagIn?_of_words {rest : List String} (words : Text.words line = hash :: other :: rest) :
    tagIn? line = some other := by
  unfold tagIn?
  rw [words]

/-- Blank lines have no words. -/
theorem words_of_allBlank (blank : Text.allBlank line = true) : Text.words line = [] := by
  unfold Text.words
  rw [List.map_eq_nil_iff, List.filter_eq_nil_iff]
  intro word member
  have empty : word = [] := by
    refine List.eq_nil_iff_forall_not_mem.2 fun c inside => ?_
    have holds := List.all_eq_true.1 blank c (Text.mem_of_mem_pieces member inside)
    rw [Text.pieces_plain line.toList word member c inside] at holds
    exact absurd holds (by simp)
  simp [empty]

theorem lastHash?_filter (tag : String) (lines : List String) :
    lastHash? tag (lines.filter fun line => !Text.allBlank line) = lastHash? tag lines := by
  induction lines with
  | nil => rfl
  | cons line rest inductionHypothesis =>
    rw [lastHash?_cons, List.filter_cons]
    split
    · rw [lastHash?_cons, inductionHypothesis]
    · next blank =>
      have none : hashIn? tag line = none := by
        unfold hashIn?
        rw [words_of_allBlank (by simpa using blank)]
      rw [inductionHypothesis, none, Option.or_none]

/-! ## Adding rows -/

/-- An entry of a table. -/
def entry (hash : String) : CommitHash := .remembered (.narrowed (.full hash))

@[simp] theorem value_entry (hash : String) : (entry hash).value = CommitHash.narrow hash := rfl

theorem lookup_insert (table : HashTable) (tag other : String) (hash : CommitHash) :
    (table.insert tag hash).rows.lookup other =
      if other = tag then some hash else table.rows.lookup other := by
  have kept : ∀ rows : List (String × CommitHash), other ≠ tag →
      (rows.filter fun row => row.1 != tag).lookup other = rows.lookup other := by
    intro rows apart
    induction rows with
    | nil => rfl
    | cons row rest inductionHypothesis =>
      rw [List.filter_cons, List.lookup_cons]
      by_cases keyed : row.1 = tag
      · have elsewhere : (other == row.1) = false := by rw [keyed, beq_eq_false_iff_ne.2 apart]
        rw [if_neg (by simp [keyed]), elsewhere]
        exact inductionHypothesis
      · rw [if_pos (by simp [keyed]), List.lookup_cons, inductionHypothesis]
  unfold insert
  by_cases same : other = tag
  · simp [same]
  · rw [List.lookup_cons, beq_eq_false_iff_ne.2 same, if_neg same]
    exact kept _ same

theorem tags_insert (table : HashTable) (tag : String) (hash : CommitHash) :
    (table.insert tag hash).rows.map Prod.fst =
      tag :: (table.rows.map Prod.fst).filter (· != tag) := by
  unfold insert
  rw [List.map_cons, List.filter_map]
  rfl

/-- A row that is added had two words. -/
theorem addRow_ok (added : table.addRow line = .ok next) :
    ∃ hash tag rest, Text.words line = hash :: tag :: rest ∧ next = table.insert tag (entry hash) := by
  unfold addRow at added
  split at added
  · next hash tag rest words => exact ⟨hash, tag, rest, words, (Except.ok.inj added).symm⟩
  · exact absurd added (by simp)

theorem addRow_of_tag (table : HashTable) (tagged : tagIn? line = some tag) :
    ∃ next, table.addRow line = .ok next := by
  unfold tagIn? at tagged
  unfold addRow
  cases words : Text.words line with
  | nil =>
    rw [words] at tagged
    exact absurd tagged (by simp)
  | cons hash behind =>
    cases behind with
    | nil =>
      rw [words] at tagged
      exact absurd tagged (by simp)
    | cons other rest => exact ⟨_, rfl⟩

/-- What rows add to a table: the last hash of each tag, and one entry for each tag. -/
structure Extends (lines : List String) (table next : HashTable) : Prop where
  lookup : ∀ tag, next.rows.lookup tag =
    ((lastHash? tag lines).map entry).or (table.rows.lookup tag)
  tags : ∀ tag, tag ∈ next.rows.map Prod.fst ↔
    tag ∈ table.rows.map Prod.fst ∨ ∃ line ∈ lines, tagIn? line = some tag
  once : (table.rows.map Prod.fst).Nodup → (next.rows.map Prod.fst).Nodup

theorem addRows_extends (added : table.addRows lines = .ok next) : Extends lines table next := by
  induction lines generalizing table with
  | nil =>
    obtain rfl := Except.ok.inj added
    exact ⟨fun _ => rfl, fun _ => by simp, id⟩
  | cons line rest inductionHypothesis =>
    unfold addRows at added
    split at added
    · next between one =>
      obtain ⟨hash, tag, more, words, rfl⟩ := addRow_ok one
      have later := inductionHypothesis added
      refine ⟨fun other => ?_, fun other => ?_, fun once => later.once ?_⟩
      · rw [later.lookup other, lastHash?_cons, lookup_insert, hashIn?_of_words words]
        by_cases same : other = tag
        · cases lastHash? other rest <;> simp [same]
        · cases lastHash? other rest <;> simp [same, Ne.symm same]
      · rw [later.tags other, tags_insert]
        by_cases same : other = tag
        · simp [same, tagIn?_of_words words]
        · simp [same, Ne.symm same, tagIn?_of_words words]
      · rw [tags_insert]
        exact List.nodup_cons.2 ⟨by simp, once.filter _⟩
    · exact absurd added (by simp)

theorem addRows_of_tags (table : HashTable) (tagged : ∀ line ∈ lines, (tagIn? line).isSome) :
    ∃ next, table.addRows lines = .ok next := by
  induction lines generalizing table with
  | nil => exact ⟨table, rfl⟩
  | cons line rest inductionHypothesis =>
    obtain ⟨tag, here⟩ := Option.isSome_iff_exists.1 (tagged line List.mem_cons_self)
    obtain ⟨between, one⟩ := addRow_of_tag table here
    obtain ⟨next, all⟩ := inductionHypothesis between
      fun other among => tagged other (List.mem_cons_of_mem line among)
    exact ⟨next, by rw [addRows, one]; exact all⟩

/-! ## Reading a table -/

/-- The answer of a table for a tag. -/
theorem get_ofText (read : ofText text = .ok table) (tag : String) :
    table.get tag = match lastHash? tag (Text.lines text) with
      | some hash => CommitHash.narrow hash
      | none => .error (.unknownTag tag) := by
  have added := (addRows_extends read).lookup tag
  rw [lastHash?_filter] at added
  unfold get
  rw [added]
  cases lastHash? tag (Text.lines text) with
  | some hash => rfl
  | none => rfl

/-- A text whose lines have two words is a table. -/
theorem ofText_ok (tagged : ∀ line ∈ Text.lines text, (tagIn? line).isSome) :
    ∃ table, ofText text = .ok table :=
  addRows_of_tags empty fun line member => tagged line (List.mem_filter.1 member).1

/-- A table has one entry for each tag of its lines. -/
theorem tags_ofText (read : ofText text = .ok table) :
    (table.rows.map Prod.fst).Nodup ∧ ∀ tag, tag ∈ table.rows.map Prod.fst ↔
      (lastHash? tag (Text.lines text)).isSome := by
  have added := addRows_extends read
  refine ⟨added.once List.nodup_nil, fun tag => ?_⟩
  rw [added.tags tag, ← lastHash?_isSome, lastHash?_filter]
  simp [empty]

end HashTable

end EoAssembly
