import EoAssembly.CommitHash.Listing
import EoAssembly.Proofs.CommitHash.Tabled
import Mathlib.Data.List.Dedup
import Mathlib.Data.List.Induction

/-!
Contract: tags come to their commits whatever the order of a listing.

A listing has lines that mention a tag, at most one plain and one peeled line for each, and
lines that say nothing.  The table made of it has one entry for each tag: the hash of its
peeled line, or else that of its plain one.  Nothing else about the lines counts, so a listing
with the same lines in another order makes a table with the same answers.

Owns `TagListing.Mention.text`, `TagListing.Lists` and these laws.
-/

namespace EoAssembly.TagListing

open Text (IsWord)

variable {mention : Mention} {told : List Mention} {tag hash line listing shuffled : String}
  {found : List (String × String)} {table : HashTable}

/-! ## Lines -/

/-- The line of a mention. -/
def Mention.text (mention : Mention) : String :=
  mention.hash ++ "\t" ++ tagLead ++ mention.tag ++ (if mention.peeled then peeledTail else "")

/-- A mention of a tag that is a word and isn't written like a peeled one. -/
structure Mention.Proper (mention : Mention) : Prop where
  hash : IsWord mention.hash
  tag : IsWord mention.tag
  plain : ¬peeledTail.toList <:+ mention.tag.toList

instance (mention : Mention) : Decidable mention.Proper :=
  decidable_of_iff (IsWord mention.hash ∧ IsWord mention.tag ∧
      ¬peeledTail.toList <:+ mention.tag.toList)
    ⟨fun parts => ⟨parts.1, parts.2.1, parts.2.2⟩,
      fun proper => ⟨proper.hash, proper.tag, proper.plain⟩⟩

/-- A line that says nothing about tags: what follows its first tab, if it has one, doesn't start
like the reference of a tag. -/
def Silent (line : String) : Prop :=
  ∀ before after, line.toList = before ++ '\t' :: after → '\t' ∉ before →
    ¬tagLead.toList <+: after

/-- A line of a listing, which mentions a tag or says nothing. -/
inductive Line where
  | mention (mention : Mention)
  | other (text : String)

/-- How a line is written. -/
def Line.text : Line → String
  | .mention mention => mention.text
  | .other text => text

/-- The mention of a line. -/
def Line.mention? : Line → Option Mention
  | .mention mention => some mention
  | .other _ => none

/-- A line that a listing may have. -/
def Line.Proper : Line → Prop
  | .mention mention => mention.Proper
  | .other text => Silent text

/-- A text whose lines mention some tags and else say nothing, with at most one plain and one peeled
line for each tag. -/
structure Lists (listing : String) (lines : List Line) : Prop where
  written : Text.lines listing = lines.map Line.text
  proper : ∀ line ∈ lines, line.Proper
  once : ((lines.filterMap Line.mention?).map fun mention => (mention.tag, mention.peeled)).Nodup

theorem splitFirst_text (mention : Mention) (hash : IsWord mention.hash) :
    Text.splitFirst '\t' mention.text = some (mention.hash,
      tagLead ++ (mention.tag ++ if mention.peeled then peeledTail else "")) := by
  have letters : mention.text.toList = mention.hash.toList ++
      '\t' :: (tagLead ++ (mention.tag ++ if mention.peeled then peeledTail else "")).toList := by
    simp [Mention.text]
  have noTab : ∀ c ∈ mention.hash.toList, (c == '\t') = false := by
    intro c inside
    rw [beq_eq_false_iff_ne]
    rintro rfl
    exact absurd (hash.plain _ inside) (by decide)
  unfold Text.splitFirst
  rw [letters, Text.cut_append noTab (by decide)]
  simp

/-- The line of a mention is read as that mention. -/
theorem mention?_text (proper : mention.Proper) : mention? mention.text = some mention := by
  obtain ⟨tag, hash, peeled⟩ := mention
  have led : ∀ rest, Text.dropLead? tagLead (tagLead ++ rest) = some rest :=
    fun rest => Text.dropLead?_eq_some.2 rfl
  unfold mention?
  rw [splitFirst_text _ proper.hash]
  simp only [led]
  cases peeled with
  | true =>
    rw [if_pos rfl, Text.dropTail?_eq_some.2 rfl]
  | false =>
    have ends : Text.dropTail? peeledTail (tag ++ "") = none := by
      rw [Option.eq_none_iff_forall_ne_some]
      intro front dropped
      have same := Text.dropTail?_eq_some.1 dropped
      refine proper.plain ⟨front.toList, ?_⟩
      rw [← String.toList_append, ← same]
      simp
    rw [if_neg (by simp), ends]
    simp

theorem silent_iff : Silent line ↔ mention? line = none := by
  unfold mention? Text.splitFirst
  constructor
  · intro silent
    cases cutLine : Text.cut (· == '\t') line.toList with
    | none => rfl
    | some parts =>
      obtain ⟨before, after⟩ := parts
      obtain ⟨c, isTab, letters⟩ := Text.cut_eq_some cutLine
      have noTab : '\t' ∉ before :=
        fun inside => Text.cut_ne_none inside (by decide) (Text.cut_before cutLine)
      rw [eq_of_beq isTab] at letters
      have none : Text.dropLead? tagLead (String.ofList after) = none := by
        rw [Option.eq_none_iff_forall_ne_some]
        intro rest dropped
        refine silent before after letters noTab ⟨rest.toList, ?_⟩
        rw [← String.toList_append, ← Text.dropLead?_eq_some.1 dropped, String.toList_ofList]
      simp only [Option.map_some, none]
  · rintro unread before after letters noTab ⟨rest, same⟩
    have plain : ∀ c ∈ before, (c == '\t') = false := by
      intro c inside
      rw [beq_eq_false_iff_ne]
      rintro rfl
      exact noTab inside
    have dropped : Text.dropLead? tagLead (String.ofList after) = some (String.ofList rest) := by
      rw [Text.dropLead?_eq_some]
      apply String.toList_injective
      rw [String.toList_append, String.toList_ofList, String.toList_ofList, same]
    rw [letters, Text.cut_append plain (by decide)] at unread
    simp only [Option.map_some, dropped] at unread
    split at unread <;> exact absurd unread (by simp)

instance (line : String) : Decidable (Silent line) := decidable_of_iff _ silent_iff.symm

instance : (line : Line) → Decidable line.Proper
  | .mention mention => inferInstanceAs (Decidable mention.Proper)
  | .other text => inferInstanceAs (Decidable (Silent text))

/-- The mentions of a listing. -/
def mentionsOf (lines : List Line) : List Mention := lines.filterMap Line.mention?

variable {lines : List Line}

theorem Lists.mentions (lists : Lists listing lines) :
    (Text.lines listing).filterMap mention? = mentionsOf lines := by
  rw [lists.written, List.filterMap_map]
  refine List.filterMap_congr fun line member => ?_
  have proper := lists.proper line member
  cases line with
  | mention mention => exact mention?_text proper
  | other text => exact silent_iff.1 proper

theorem Lists.proper_of_mem (lists : Lists listing lines) (member : mention ∈ mentionsOf lines) :
    mention.Proper := by
  obtain ⟨line, among, same⟩ := List.mem_filterMap.1 member
  have proper := lists.proper line among
  cases line with
  | mention own =>
    rw [← Option.some.inj same]
    exact proper
  | other text => exact absurd same (by simp [Line.mention?])

/-! ## Recording -/

/-- The hash that mentions give a tag: that of a peeled line, or else that of any. -/
def hashOf? (tag : String) (mentions : List Mention) : Option String :=
  ((mentions.find? fun mention => mention.tag = tag && mention.peeled).or
    (mentions.find? fun mention => mention.tag = tag)).map Mention.hash

theorem lookup_record (mention : Mention) (tag : String) (found : List (String × String)) :
    (record mention found).lookup tag =
      if tag = mention.tag then
        match found.lookup tag with
        | some hash => some (if mention.peeled then mention.hash else hash)
        | none => some mention.hash
      else found.lookup tag := by
  induction found with
  | nil => by_cases same : tag = mention.tag <;> simp [record, same]
  | cons row rest inductionHypothesis =>
    obtain ⟨other, hash⟩ := row
    unfold record
    by_cases here : other = mention.tag
    · rw [if_pos here]
      by_cases same : tag = mention.tag
      · simp [same, here]
      · have apart : (tag == other) = false := by
          rw [here]
          exact beq_eq_false_iff_ne.2 same
        rw [if_neg same, List.lookup_cons, List.lookup_cons, apart]
    · rw [if_neg here, List.lookup_cons, List.lookup_cons, inductionHypothesis]
      by_cases same : tag = other
      · simp [same, here]
      · rw [beq_eq_false_iff_ne.2 same]

theorem tags_record (mention : Mention) (found : List (String × String)) :
    (record mention found).map Prod.fst =
      if mention.tag ∈ found.map Prod.fst then found.map Prod.fst
      else found.map Prod.fst ++ [mention.tag] := by
  induction found with
  | nil => rfl
  | cons row rest inductionHypothesis =>
    obtain ⟨other, hash⟩ := row
    unfold record
    by_cases here : other = mention.tag
    · simp [here]
    · rw [if_neg here, List.map_cons, inductionHypothesis]
      by_cases later : mention.tag ∈ rest.map Prod.fst
      · rw [if_pos later, if_pos (by simp only [List.map_cons, List.mem_cons]; exact Or.inr later)]
        rfl
      · rw [if_neg later, if_neg]
        · rfl
        · simp only [List.map_cons, List.mem_cons, not_or]
          exact ⟨fun same => here same.symm, later⟩

/-- Where every tag has one row, it is found in it. -/
theorem lookup_of_mem {row : String × String} (once : (found.map Prod.fst).Nodup)
    (member : row ∈ found) : found.lookup row.1 = some row.2 := by
  induction found with
  | nil => exact absurd member List.not_mem_nil
  | cons first rest inductionHypothesis =>
    rw [List.map_cons, List.nodup_cons] at once
    rw [List.lookup_cons]
    rcases List.mem_cons.1 member with rfl | later
    · simp
    · have apart : row.1 ≠ first.1 := fun same => once.1 (same ▸ List.mem_map_of_mem later)
      rw [beq_eq_false_iff_ne.2 apart]
      exact inductionHypothesis once.2 later

/-- What is recorded of mentions: every tag once, with the hash that the mentions give it. -/
structure Recorded (mentions : List Mention) (found : List (String × String)) : Prop where
  lookup : ∀ tag, found.lookup tag = hashOf? tag mentions
  once : (found.map Prod.fst).Nodup
  tags : ∀ tag, tag ∈ found.map Prod.fst ↔ ∃ mention ∈ mentions, mention.tag = tag

theorem hashOf?_eq_none :
    hashOf? tag told = none ↔ ∀ mention ∈ told, mention.tag ≠ tag := by
  unfold hashOf?
  rw [Option.map_eq_none_iff, Option.or_eq_none_iff, List.find?_eq_none, List.find?_eq_none]
  constructor
  · intro both mention member same
    exact both.2 mention member (by simpa using same)
  · intro none
    exact ⟨fun mention member => by simp [none mention member],
      fun mention member => by simpa using none mention member⟩

theorem hashOf?_isSome : (hashOf? tag told).isSome ↔ ∃ mention ∈ told, mention.tag = tag := by
  rw [Option.isSome_iff_ne_none, ne_eq, hashOf?_eq_none]
  simp

/-- A further mention gives its hash to its tag when it is peeled or the first one. -/
theorem hashOf?_concat {mentions : List Mention} (mention : Mention) (tag : String)
    (once : ((mentions ++ [mention]).map fun mention => (mention.tag, mention.peeled)).Nodup) :
    hashOf? tag (mentions ++ [mention]) =
      if tag = mention.tag then
        match hashOf? tag mentions with
        | some hash => some (if mention.peeled then mention.hash else hash)
        | none => some mention.hash
      else hashOf? tag mentions := by
  unfold hashOf?
  rw [List.find?_append, List.find?_append]
  by_cases same : tag = mention.tag
  · rw [if_pos same]
    cases peeled : mention.peeled with
    | true =>
      have first : (mentions.find? fun other => other.tag = tag && other.peeled) = none := by
        rw [List.find?_eq_none]
        intro other member both
        simp only [Bool.and_eq_true, decide_eq_true_eq] at both
        rw [List.map_append, List.nodup_append] at once
        refine once.2.2 (other.tag, other.peeled) (List.mem_map_of_mem member) _
          (List.mem_map_of_mem (List.mem_singleton_self mention)) ?_
        rw [both.1, both.2, same, peeled]
      rw [first]
      simp only [List.find?_singleton, same, peeled]
      cases mentions.find? fun other => decide (other.tag = mention.tag) <;> simp
    | false =>
      simp only [List.find?_singleton, same, peeled]
      cases (mentions.find? fun other => other.tag = mention.tag && other.peeled) with
      | some other => simp
      | none => cases mentions.find? fun other => decide (other.tag = mention.tag) <;> simp
  · have apart : ¬mention.tag = tag := fun wrong => same wrong.symm
    rw [if_neg same]
    simp [apart]

theorem recorded_foldl (mentions : List Mention)
    (once : (mentions.map fun mention => (mention.tag, mention.peeled)).Nodup) :
    Recorded mentions (mentions.foldl (fun found next => record next found) []) := by
  induction mentions using List.reverseRecOn with
  | nil => exact ⟨fun _ => rfl, List.nodup_nil, by simp⟩
  | append_singleton front mention inductionHypothesis =>
    have onceFront : (front.map fun mention => (mention.tag, mention.peeled)).Nodup := by
      rw [List.map_append] at once
      exact (List.nodup_append.1 once).1
    have recorded := inductionHypothesis onceFront
    rw [List.foldl_append, List.foldl_cons, List.foldl_nil]
    generalize front.foldl (fun found next => record next found) [] = found at recorded ⊢
    refine ⟨fun tag => ?_, ?_, fun tag => ?_⟩
    · rw [lookup_record, hashOf?_concat mention tag once, recorded.lookup tag]
    · rw [tags_record]
      split
      · exact recorded.once
      · next fresh =>
        refine List.nodup_append.2 ⟨recorded.once, List.nodup_singleton _, ?_⟩
        rintro tag among other isNew rfl
        rw [List.mem_singleton.1 isNew] at among
        exact fresh among
    · have either : tag ∈ (record mention found).map Prod.fst ↔
          tag ∈ found.map Prod.fst ∨ mention.tag = tag := by
        rw [tags_record]
        split
        · next known =>
          refine ⟨Or.inl, fun member => member.elim id ?_⟩
          rintro rfl
          exact known
        · rw [List.mem_append, List.mem_singleton, eq_comm]
      rw [either, recorded.tags tag]
      simp only [List.mem_append, List.mem_singleton, or_and_right, exists_or, exists_eq_left]

/-! ## The table of a listing -/

/-- A row of a table. -/
def rowText (row : String × String) : String := row.2 ++ " " ++ row.1

theorem rows_eq (listing : String) :
    rows listing = Text.joinAll '\n' ((tags listing).map rowText) := by
  rfl

theorem words_rowText {row : String × String} (words : IsWord row.1 ∧ IsWord row.2) :
    Text.words (rowText row) = [row.2, row.1] := words.2.words_pair words.1

/-- Rows of words are the lines of their text. -/
theorem lines_rowText (words : ∀ row ∈ found, IsWord row.1 ∧ IsWord row.2) :
    Text.lines (Text.joinAll '\n' (found.map rowText)) = found.map rowText := by
  apply Text.lines_joinAll
  · intro line member empty
    obtain ⟨row, among, rfl⟩ := List.mem_map.1 member
    have letters := congrArg String.toList empty
    simp [rowText] at letters
  · intro line member c inside
    obtain ⟨row, among, rfl⟩ := List.mem_map.1 member
    simp only [rowText, String.toList_append, List.mem_append] at inside
    rcases inside with (inHash | isSpace) | inTag
    · exact (words row among).2.single c inHash
    · rw [List.mem_singleton.1 isSpace]
      decide
    · exact (words row among).1.single c inTag

/-- Where every tag has one row, its hash is the one in that row. -/
theorem lastHash?_rowText (words : ∀ row ∈ found, IsWord row.1 ∧ IsWord row.2)
    (once : (found.map Prod.fst).Nodup) (tag : String) :
    HashTable.lastHash? tag (found.map rowText) = found.lookup tag := by
  induction found with
  | nil => rfl
  | cons row rest inductionHypothesis =>
    obtain ⟨other, hash⟩ := row
    rw [List.map_cons, List.nodup_cons] at once
    rw [List.map_cons, HashTable.lastHash?_cons, List.lookup_cons,
      HashTable.hashIn?_of_words (words_rowText (words (other, hash) List.mem_cons_self)),
      inductionHypothesis (fun row among => words row (List.mem_cons_of_mem _ among)) once.2]
    by_cases same : other = tag
    · have elsewhere : rest.lookup tag = none := by
        rw [List.lookup_eq_none_iff]
        intro row among
        rw [bne_iff_ne]
        intro isRow
        have inside : row.1 ∈ rest.map Prod.fst := List.mem_map_of_mem among
        exact once.1 (by rwa [same, isRow])
      simp [elsewhere, same]
    · rw [if_neg same, Option.or_none, beq_eq_false_iff_ne.2 (Ne.symm same)]

/-- A table gives a tag the first seven characters of a hash, or refuses one that is shorter. -/
structure Pinned (table : HashTable) (tag hash : String) : Prop where
  long : 7 ≤ hash.toList.length → table.get tag = .ok (String.ofList (hash.toList.take 7))
  short : hash.toList.length < 7 →
    table.get tag = .error (.invalidHash hash "expected at least 7 characters")

theorem pinned_iff : Pinned table tag hash ↔ table.get tag = CommitHash.narrow hash := by
  constructor
  · intro pinned
    by_cases long : 7 ≤ hash.toList.length
    · rw [pinned.long long, CommitHash.narrow_ok long]
      rfl
    · rw [pinned.short (by omega), CommitHash.narrow_error (by change _ < 7; omega)]
      rfl
  · intro same
    refine ⟨fun long => ?_, fun short => ?_⟩
    · rw [same, CommitHash.narrow_ok long]
      rfl
    · rw [same, CommitHash.narrow_error short]
      rfl

/-- A table says of each tag what its mentions say, and knows no other tag. -/
structure Resolves (table : HashTable) (told : List Mention) : Prop where
  size : table.size = (told.map Mention.tag).dedup.length
  peeled : ∀ mention ∈ told, mention.peeled = true → Pinned table mention.tag mention.hash
  plain : ∀ mention ∈ told, (∀ other ∈ told, other.tag = mention.tag → other.peeled = false) →
    Pinned table mention.tag mention.hash
  unknown : ∀ tag, (∀ mention ∈ told, mention.tag ≠ tag) → table.get tag = .error (.unknownTag tag)

/-- The hash that a peeled mention gives, or one of a tag without a peeled mention. -/
theorem hashOf?_of_mem (once : (told.map fun mention => (mention.tag, mention.peeled)).Nodup)
    (member : mention ∈ told)
    (first : ∀ other ∈ told, other.tag = mention.tag → other.peeled = true → mention.peeled = true) :
    hashOf? mention.tag told = some mention.hash := by
  have unique : ∀ other ∈ told, other.tag = mention.tag → other.peeled = mention.peeled →
      other = mention := fun other among sameTag samePeeled =>
    List.inj_on_of_nodup_map once among member (Prod.ext sameTag samePeeled)
  unfold hashOf?
  cases peeled : mention.peeled with
  | true =>
    have some_ : (told.find? fun other => other.tag = mention.tag && other.peeled).isSome := by
      rw [List.find?_isSome]
      exact ⟨mention, member, by simp [peeled]⟩
    obtain ⟨other, foundOther⟩ := Option.isSome_iff_exists.1 some_
    have both := List.find?_some foundOther
    simp only [Bool.and_eq_true, decide_eq_true_eq] at both
    rw [foundOther, unique other (List.mem_of_find?_eq_some foundOther) both.1 (by rw [both.2, peeled])]
    rfl
  | false =>
    have noPeeled : ∀ other ∈ told, other.tag = mention.tag → other.peeled = false := by
      intro other among sameTag
      by_contra wrong
      rw [first other among sameTag (by simpa using wrong)] at peeled
      exact absurd peeled (by simp)
    have none : (told.find? fun other => other.tag = mention.tag && other.peeled) = none := by
      rw [List.find?_eq_none]
      intro other among both
      simp only [Bool.and_eq_true, decide_eq_true_eq] at both
      rw [noPeeled other among both.1] at both
      exact absurd both.2 (by simp)
    have some_ : (told.find? fun other => decide (other.tag = mention.tag)).isSome := by
      rw [List.find?_isSome]
      exact ⟨mention, member, by simp⟩
    obtain ⟨other, foundOther⟩ := Option.isSome_iff_exists.1 some_
    have sameTag : other.tag = mention.tag := by simpa using List.find?_some foundOther
    have among := List.mem_of_find?_eq_some foundOther
    rw [none, foundOther, unique other among sameTag (by rw [noPeeled other among sameTag, peeled])]
    rfl

theorem exists_of_hashOf? (isHash : hashOf? tag told = some hash) :
    ∃ mention ∈ told, mention.tag = tag ∧ mention.hash = hash := by
  unfold hashOf? at isHash
  obtain ⟨mention, either, rfl⟩ := Option.map_eq_some_iff.1 isHash
  rcases Option.or_eq_some_iff.1 either with first | ⟨_, second⟩
  · have both := List.find?_some first
    simp only [Bool.and_eq_true, decide_eq_true_eq] at both
    exact ⟨mention, List.mem_of_find?_eq_some first, both.1, rfl⟩
  · exact ⟨mention, List.mem_of_find?_eq_some second, by simpa using List.find?_some second, rfl⟩

/-- A listing whose mentions are proper makes a table that resolves them. -/
theorem resolves_rows (listing : String) (mentions : (Text.lines listing).filterMap mention? = told)
    (proper : ∀ mention ∈ told, mention.Proper)
    (once : (told.map fun mention => (mention.tag, mention.peeled)).Nodup) :
    ∃ table, HashTable.ofText (rows listing) = .ok table ∧ Resolves table told := by
  have recorded : Recorded told (tags listing) := by
    unfold tags
    rw [mentions]
    exact recorded_foldl told once
  have words : ∀ row ∈ tags listing, IsWord row.1 ∧ IsWord row.2 := by
    intro row member
    have isHash : hashOf? row.1 told = some row.2 := by
      rw [← recorded.lookup row.1]
      exact lookup_of_mem recorded.once member
    obtain ⟨mention, among, sameTag, sameHash⟩ := exists_of_hashOf? isHash
    rw [← sameTag, ← sameHash]
    exact ⟨(proper mention among).tag, (proper mention among).hash⟩
  have lines : Text.lines (rows listing) = (tags listing).map rowText := by
    rw [rows_eq, lines_rowText words]
  have hashes : ∀ tag, HashTable.lastHash? tag (Text.lines (rows listing)) = hashOf? tag told := by
    intro tag
    rw [lines, lastHash?_rowText words recorded.once, recorded.lookup]
  obtain ⟨table, read⟩ : ∃ table, HashTable.ofText (rows listing) = .ok table := by
    apply HashTable.ofText_ok
    intro line member
    rw [lines] at member
    obtain ⟨row, among, rfl⟩ := List.mem_map.1 member
    rw [HashTable.tagIn?_of_words (words_rowText (words row among))]
    rfl
  have gets := HashTable.get_ofText read
  simp only [hashes] at gets
  have pinned : ∀ mention ∈ told, (∀ other ∈ told, other.tag = mention.tag →
      other.peeled = true → mention.peeled = true) → Pinned table mention.tag mention.hash := by
    intro mention member first
    rw [pinned_iff, gets, hashOf?_of_mem once member first]
  refine ⟨table, read, ?_, fun mention member peeled => ?_, fun mention member plain => ?_,
    fun tag none => ?_⟩
  · obtain ⟨single, known⟩ := HashTable.tags_ofText read
    have same : (table.rows.map Prod.fst).Perm (told.map Mention.tag).dedup := by
      rw [List.perm_ext_iff_of_nodup single (List.nodup_dedup _)]
      intro tag
      rw [known, hashes, List.mem_dedup, List.mem_map, hashOf?_isSome]
    rw [← same.length_eq, List.length_map]
    rfl
  · exact pinned mention member fun _ _ _ _ => peeled
  · exact pinned mention member fun other among sameTag isPeeled => by
      rw [plain other among sameTag] at isPeeled
      exact absurd isPeeled (by simp)
  · rw [gets, hashOf?_eq_none.2 none]

/-- Tables that resolve the same mentions give the same answers. -/
theorem Resolves.get_eq {other : HashTable} {again : List Mention} (resolves : Resolves table told)
    (resolvesAgain : Resolves other again) (same : again.Perm told) (tag : String) :
    other.get tag = table.get tag := by
  by_cases known : ∃ mention ∈ told, mention.tag = tag
  · by_cases peeled : ∃ mention ∈ told, mention.tag = tag ∧ mention.peeled = true
    · obtain ⟨mention, member, rfl, isPeeled⟩ := peeled
      rw [pinned_iff.1 (resolves.peeled mention member isPeeled),
        pinned_iff.1 (resolvesAgain.peeled mention (same.mem_iff.2 member) isPeeled)]
    · obtain ⟨mention, member, rfl⟩ := known
      have plain : ∀ other ∈ told, other.tag = mention.tag → other.peeled = false :=
        fun other among sameTag => by
          by_contra isPeeled
          exact peeled ⟨other, among, sameTag, by simpa using isPeeled⟩
      rw [pinned_iff.1 (resolves.plain mention member plain),
        pinned_iff.1 (resolvesAgain.plain mention (same.mem_iff.2 member)
          fun other among => plain other (same.mem_iff.1 among))]
  · have none : ∀ mention ∈ told, mention.tag ≠ tag :=
      fun mention member sameTag => known ⟨mention, member, sameTag⟩
    rw [resolves.unknown tag none,
      resolvesAgain.unknown tag fun mention member => none mention (same.mem_iff.1 member)]

/-- A listing makes a table with one entry for each tag, which comes to the hash of its peeled line,
or else to that of its plain one.  A listing with the same lines in another order makes a table
with the same answers. -/
theorem tags_resolved (lists : Lists listing lines) :
    ∃ table, HashTable.ofText (rows listing) = .ok table ∧ Resolves table (mentionsOf lines) ∧
      ∀ shuffled, (Text.lines shuffled).Perm (Text.lines listing) →
        ∃ other, HashTable.ofText (rows shuffled) = .ok other ∧ other.size = table.size ∧
          ∀ tag, other.get tag = table.get tag := by
  obtain ⟨table, read, resolves⟩ := resolves_rows listing lists.mentions
    (fun mention => lists.proper_of_mem) lists.once
  refine ⟨table, read, resolves, fun shuffled permuted => ?_⟩
  have same : ((Text.lines shuffled).filterMap mention?).Perm (mentionsOf lines) := by
    rw [← lists.mentions]
    exact permuted.filterMap _
  obtain ⟨other, readOther, resolvesOther⟩ := resolves_rows shuffled rfl
    (fun mention member => lists.proper_of_mem (same.mem_iff.1 member))
    ((same.map _).nodup_iff.2 lists.once)
  refine ⟨other, readOther, ?_, resolves.get_eq resolvesOther same⟩
  rw [resolvesOther.size, resolves.size]
  exact (same.map Mention.tag).dedup.length_eq

/-- Lines of five tags, of which one is peeled before it is plain, and two lines of no tag. -/
def sampleLines : List Line :=
  [.other "From example.com", .mention ⟨"0.1", "1111111aaa", false⟩,
    .mention ⟨"0.2", "2222222bbb", true⟩, .mention ⟨"0.1", "3333333ccc", true⟩,
    .mention ⟨"0.2", "4444444ddd", false⟩, .mention ⟨"0.3", "5555555", true⟩,
    .mention ⟨"0.4", "666666", false⟩, .other "7777777\trefs/heads/0.5"]

/-- A listing of these lines. -/
def sampleListing : String := Text.joinAll '\n' (sampleLines.map Line.text)

/-- The lines are read as they are written, in any order. -/
theorem lines_sample {lines : List Line} (among : ∀ line ∈ lines, line ∈ sampleLines) :
    Text.lines (Text.joinAll '\n' (lines.map Line.text)) = lines.map Line.text := by
  have checked : sampleLines.all (fun line => line.text != "" &&
      line.text.toList.all fun c => c != '\n' && c != '\r') = true := by
    decide +kernel
  have single : ∀ line ∈ sampleLines, line.text ≠ "" ∧
      ∀ c ∈ line.text.toList, c ≠ '\n' ∧ c ≠ '\r' := by
    simpa [List.all_eq_true] using checked
  apply Text.lines_joinAll
  · intro text member
    obtain ⟨line, inside, rfl⟩ := List.mem_map.1 member
    exact (single line (among line inside)).1
  · intro text member
    obtain ⟨line, inside, rfl⟩ := List.mem_map.1 member
    exact (single line (among line inside)).2

theorem lists_sample : Lists sampleListing sampleLines :=
  ⟨lines_sample fun _ => id, by decide +kernel, by decide +kernel⟩

/-- The tags of the lines come to their commits, also when the lines are read from the end. -/
theorem sample_resolved : Lists sampleListing sampleLines ∧
    ∃ table, HashTable.ofText (rows sampleListing) = .ok table ∧ table.size = 4 ∧
      table.get "0.1" = .ok "3333333" ∧ table.get "0.2" = .ok "2222222" ∧
      table.get "0.3" = .ok "5555555" ∧
      table.get "0.4" = .error (.invalidHash "666666" "expected at least 7 characters") ∧
      table.get "0.5" = .error (.unknownTag "0.5") ∧
      ∃ other, HashTable.ofText
          (rows (Text.joinAll '\n' (sampleLines.reverse.map Line.text))) = .ok other ∧
        ∀ tag, other.get tag = table.get tag := by
  obtain ⟨table, read, resolves, permuted⟩ := tags_resolved lists_sample
  have reversed : (Text.lines (Text.joinAll '\n' (sampleLines.reverse.map Line.text))).Perm
      (Text.lines sampleListing) := by
    rw [lines_sample fun _ => List.mem_reverse.1, lists_sample.written]
    exact (List.reverse_perm sampleLines).map _
  obtain ⟨other, readOther, _, same⟩ := permuted _ reversed
  refine ⟨lists_sample, table, read, ?_, ?_, ?_, ?_, ?_, ?_, other, readOther, same⟩
  · rw [resolves.size]
    decide
  · exact (resolves.peeled ⟨"0.1", "3333333ccc", true⟩ (by decide) rfl).long (by decide)
  · exact (resolves.peeled ⟨"0.2", "2222222bbb", true⟩ (by decide) rfl).long (by decide)
  · exact (resolves.peeled ⟨"0.3", "5555555", true⟩ (by decide) rfl).long (by decide)
  · exact (resolves.plain ⟨"0.4", "666666", false⟩ (by decide) (by decide)).short (by decide)
  · exact resolves.unknown "0.5" (by decide)

end EoAssembly.TagListing
