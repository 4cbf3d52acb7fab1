import EoAssembly.Proofs.Build.Names

/-!
Contract: which names share their files.

Runs of dots in a base are shortened: to one before the first letter, to two between
letters, to none behind the last.  Names of one version have the same places exactly when
this leaves the same of their bases.  A name without a version shares its places with one
that has a version where its first part is that version, or where that version alone reads
as its file.

Owns `ObjectName.spelling`, `ObjectName.Meet`, and the law that places are the same exactly
for names that meet.
-/

namespace EoAssembly

namespace ObjectName

variable {extension name left right tag : String} {text : List Char} {parts others : List String}

/-! ## Spellings -/

/-- A text where at most `most` dots stand before the next letter, `dots` of them already read, at
most two between letters, and none behind the last. -/
def spell (most dots : Nat) : List Char → List Char
  | [] => []
  | c :: rest =>
    if c = '.' then spell most (min most (dots + 1)) rest
    else List.replicate dots '.' ++ c :: spell 2 0 rest

/-- The base of a name with no more dots than its place tells apart. -/
def spelling (name : String) : String := String.ofList (spell 1 0 (split name).1.toList)

/-- Letters without dots, behind one dot at most. -/
def Part (text : String) : Prop :=
  ∃ letters : List Char, letters ≠ [] ∧ (∀ c ∈ letters, c ≠ '.') ∧
    (text.toList = letters ∨ text.toList = '.' :: letters)

/-- The parts of a text between its dots. -/
def partsOf (dotted : Bool) (text : List Char) : List String :=
  placeParts dotted ((Text.pieces (· == '.') text).map String.ofList)

/-- What parts are behind others, with the dot between them. -/
def behind (parts : List String) : List Char :=
  if parts = [] then [] else '.' :: Text.joined '.' (parts.map String.toList)

theorem joined_cons (part : String) (parts : List String) :
    Text.joined '.' ((part :: parts).map String.toList) = part.toList ++ behind parts := by
  cases parts with
  | nil => simp [Text.joined, behind]
  | cons second more => simp [Text.joined, behind]

@[simp] theorem partsOf_nil (dotted : Bool) : partsOf dotted [] = [] := by
  simp [partsOf, Text.pieces, placeParts]

@[simp] theorem partsOf_dot (dotted : Bool) (text : List Char) :
    partsOf dotted ('.' :: text) = partsOf true text := by
  simp [partsOf, Text.pieces, placeParts]

/-- Letters are a part, with the dot that is kept for them. -/
theorem placeParts_letters {letters : List Char} (some_ : letters ≠ []) (dotted : Bool)
    (rest : List String) :
    placeParts dotted (String.ofList letters :: rest) =
      String.ofList (List.replicate dotted.toNat '.' ++ letters) :: placeParts false rest := by
  have notEmpty : String.ofList letters ≠ "" := by
    intro empty
    have chars := congrArg String.toList empty
    rw [String.toList_ofList] at chars
    exact some_ chars
  rw [placeParts, if_neg notEmpty]
  cases dotted with
  | false => rfl
  | true =>
    have chars : "." ++ String.ofList letters = String.ofList ('.' :: letters) := by
      apply String.toList_injective
      simp
    rw [if_pos rfl, chars]
    rfl

/-- A letter belongs to the part that follows. -/
theorem partsOf_letter {c : Char} (letter : c ≠ '.') (dotted : Bool) (text : List Char) :
    ∃ first others, Text.pieces (· == '.') text = first :: others ∧
      partsOf dotted (c :: text) =
        String.ofList (List.replicate dotted.toNat '.' ++ c :: first) ::
          placeParts false (others.map String.ofList) := by
  obtain ⟨first, others, pieces⟩ := List.exists_cons_of_ne_nil (Text.pieces_ne_nil (· == '.') text)
  refine ⟨first, others, pieces, ?_⟩
  have apart : (c == '.') = false := beq_eq_false_iff_ne.2 letter
  have whole : Text.pieces (· == '.') (c :: text) = (c :: first) :: others := by
    simp only [Text.pieces, apart, pieces]
    rfl
  unfold partsOf
  rw [whole, List.map_cons, placeParts_letters (by simp)]

/-- Joining the parts of a text shortens its runs of dots: before the first letter, behind a
letter, and behind a dot. -/
theorem joined_partsOf (text : List Char) :
    (∀ dotted, Text.joined '.' ((partsOf dotted text).map String.toList) =
      spell 1 dotted.toNat text) ∧
    (∀ first others, Text.pieces (· == '.') text = first :: others →
      first ++ behind (placeParts false (others.map String.ofList)) = spell 2 0 text) ∧
    ∀ dotted, behind (partsOf dotted text) = spell 2 (1 + dotted.toNat) text := by
  induction text with
  | nil =>
    refine ⟨fun _ => rfl, fun first others pieces => ?_, fun _ => rfl⟩
    obtain ⟨rfl, rfl⟩ := List.cons.inj pieces
    rfl
  | cons c rest inductionHypothesis =>
    obtain ⟨atStart, inside, onward⟩ := inductionHypothesis
    by_cases dot : c = '.'
    · subst dot
      refine ⟨fun dotted => ?_, fun first others pieces => ?_, fun dotted => ?_⟩
      · rw [partsOf_dot, atStart true]
        cases dotted <;> rfl
      · obtain ⟨rfl, rfl⟩ := List.cons.inj pieces
        exact onward false
      · rw [partsOf_dot, onward true]
        cases dotted <;> rfl
    · have parted := partsOf_letter dot
      obtain ⟨first, others, pieces, _⟩ := parted false rest
      have letters := inside first others pieces
      have spelled : ∀ most dots, spell most dots (c :: rest) =
          List.replicate dots '.' ++ c :: spell 2 0 rest := fun most dots => if_neg dot
      have start : ∀ dotted, Text.joined '.' ((partsOf dotted (c :: rest)).map String.toList) =
          List.replicate dotted.toNat '.' ++ c :: spell 2 0 rest := by
        intro dotted
        obtain ⟨again, more, piecesAgain, isParts⟩ := parted dotted rest
        rw [pieces] at piecesAgain
        obtain ⟨rfl, rfl⟩ := List.cons.inj piecesAgain
        rw [isParts, joined_cons, String.toList_ofList, List.append_assoc, List.cons_append, letters]
      refine ⟨fun dotted => ?_, fun found more piecesFound => ?_, fun dotted => ?_⟩
      · rw [start, spelled]
      · have apart : (c == '.') = false := beq_eq_false_iff_ne.2 dot
        simp only [Text.pieces, apart, pieces] at piecesFound
        obtain ⟨rfl, rfl⟩ := List.cons.inj piecesFound
        rw [spelled, List.cons_append, letters]
        rfl
      · obtain ⟨_, _, _, isParts⟩ := parted dotted rest
        unfold behind
        rw [if_neg (by rw [isParts]; simp), start, spelled, Nat.add_comm, List.replicate_succ]
        rfl

theorem part_of_pieces {pieces : List (List Char)} (plain : ∀ piece ∈ pieces, ∀ c ∈ piece, c ≠ '.') :
    ∀ dotted, ∀ part ∈ placeParts dotted (pieces.map String.ofList), Part part := by
  induction pieces with
  | nil => simp [placeParts]
  | cons piece rest inductionHypothesis =>
    intro dotted part member
    have later := inductionHypothesis fun other among => plain other (List.mem_cons_of_mem piece among)
    have here := plain piece List.mem_cons_self
    rw [List.map_cons] at member
    unfold placeParts at member
    split at member
    · exact later true part member
    · next some_ =>
      rcases List.mem_cons.1 member with own | following
      · refine ⟨piece, fun none => some_ (by rw [none]), here, ?_⟩
        rw [own]
        cases dotted <;> simp
      · exact later false part following

theorem part_of_partsOf {dotted : Bool} : ∀ part ∈ partsOf dotted text, Part part := by
  apply part_of_pieces
  intro piece member c inside
  simpa using Text.pieces_plain text piece member c inside

/-- Parts are the parts of what they join to. -/
theorem partsOf_joined (areParts : ∀ part ∈ parts, Part part) :
    partsOf false (Text.joined '.' (parts.map String.toList)) = parts := by
  induction parts with
  | nil => rfl
  | cons part rest inductionHypothesis =>
    have later := inductionHypothesis fun other among => areParts other (List.mem_cons_of_mem part among)
    obtain ⟨letters, some_, plain, spelled⟩ := areParts part List.mem_cons_self
    have apart : ∀ c ∈ letters, (c == '.') = false := fun c inside => by simpa using plain c inside
    -- The letters are one piece, and what is behind them gives the other parts.
    have pieces : ∃ others, Text.pieces (· == '.') (letters ++ behind rest) = letters :: others ∧
        placeParts false (others.map String.ofList) = rest := by
      unfold behind
      by_cases last : rest = []
      · rw [if_pos last, List.append_nil, Text.pieces_of_none apart]
        exact ⟨[], rfl, last.symm⟩
      · rw [if_neg last, Text.pieces_append apart (by decide)]
        exact ⟨_, rfl, later⟩
    obtain ⟨others, isPieces, areRest⟩ := pieces
    rw [joined_cons]
    rcases spelled with same | dotted
    · have isPart : String.ofList letters = part := same ▸ String.ofList_toList
      rw [same, partsOf, isPieces, List.map_cons, placeParts_letters some_, areRest]
      exact congrArg (· :: rest) isPart
    · have isPart : String.ofList ('.' :: letters) = part := dotted ▸ String.ofList_toList
      rw [dotted, List.cons_append, partsOf_dot, partsOf, isPieces, List.map_cons,
        placeParts_letters some_, areRest]
      exact congrArg (· :: rest) isPart

/-- The parts of the base of a name. -/
def partsOfName (name : String) : List String := partsOf false (split name).1.toList

theorem part_of_name : ∀ part ∈ partsOfName name, Part part := part_of_partsOf

theorem spelling_eq (name : String) :
    spelling name = String.ofList (Text.joined '.' ((partsOfName name).map String.toList)) := by
  unfold spelling partsOfName
  rw [(joined_partsOf _).1 false]
  rfl

/-- A name has parts whose spelling is a text exactly when they are the parts of that text. -/
theorem partsOfName_eq_iff (areParts : ∀ part ∈ parts, Part part) :
    partsOfName name = parts ↔
      spelling name = String.ofList (Text.joined '.' (parts.map String.toList)) := by
  rw [spelling_eq, String.ofList_inj]
  constructor
  · intro same
    rw [same]
  · intro same
    have again := congrArg (partsOf false) same
    rwa [partsOf_joined areParts, partsOf_joined part_of_name] at again

theorem partsOfName_inj : partsOfName left = partsOfName right ↔ spelling left = spelling right := by
  rw [partsOfName_eq_iff part_of_name, ← spelling_eq]

/-! ## Names that share their files -/

/-- A name without a version is the file of one that has a version: its first part is that version,
or it is one part, and that version reads as its file. -/
def Hides (extension plain versioned : String) : Prop :=
  (split plain).2 = none ∧ ∃ tag, (split versioned).2 = some tag ∧
    ((spelling versioned ≠ "" ∧ Part tag ∧ spelling plain = tag ++ "." ++ spelling versioned) ∨
      (spelling versioned = "" ∧ Part (spelling plain) ∧ tag = spelling plain ++ "." ++ extension))

/-- Two names have one file. -/
def Meet (extension left right : String) : Prop :=
  ((split left).2 = (split right).2 ∧ spelling left = spelling right) ∨
    Hides extension left right ∨ Hides extension right left

theorem segments_eq (extension name : String) :
    segments extension name = (split name).2.toList ++ fileBelow extension (partsOfName name) := rfl

theorem fileBelow_nil_iff : fileBelow extension parts = [] ↔ parts = [] := by
  cases parts with
  | nil => simp [fileBelow]
  | cons first rest => cases rest <;> simp [fileBelow]

theorem extended_inj {first second : String}
    (same : s!"{first}.{extension}" = s!"{second}.{extension}") : first = second := by
  have chars := congrArg String.toList same
  rw [toList_extended, toList_extended] at chars
  exact String.toList_injective (List.append_cancel_right chars)

theorem fileBelow_inj (same : fileBelow extension parts = fileBelow extension others) :
    parts = others := by
  induction parts generalizing others with
  | nil => exact (fileBelow_nil_iff.1 same.symm).symm
  | cons first rest inductionHypothesis =>
    cases others with
    | nil => exact absurd same fun wrong => absurd (fileBelow_nil_iff.1 wrong) (by simp)
    | cons other more =>
      cases rest with
      | nil =>
        cases more with
        | nil =>
          have files := (List.cons.inj same).1
          rw [extended_inj files]
        | cons second last =>
          have none := (List.cons.inj same).2
          exact absurd (fileBelow_nil_iff.1 none.symm) (by simp)
      | cons second last =>
        cases more with
        | nil =>
          have none := (List.cons.inj same).2
          exact absurd (fileBelow_nil_iff.1 none) (by simp)
        | cons third later =>
          obtain ⟨here, below⟩ := List.cons.inj same
          rw [here, inductionHypothesis below]

/-- The file of a name is behind a directory that its first part names, or the one part names it. -/
theorem fileBelow_eq_cons_iff {rest : List String} :
    fileBelow extension parts = tag :: fileBelow extension rest ↔
      (rest ≠ [] ∧ parts = tag :: rest) ∨
        (rest = [] ∧ ∃ last, parts = [last] ∧ tag = s!"{last}.{extension}") := by
  cases parts with
  | nil => simp [fileBelow]
  | cons first others =>
    cases others with
    | nil =>
      simp only [fileBelow, List.cons.injEq]
      constructor
      · rintro ⟨isTag, none⟩
        exact Or.inr ⟨fileBelow_nil_iff.1 none.symm, first, ⟨rfl, trivial⟩, isTag.symm⟩
      · rintro (⟨some_, _, none⟩ | ⟨none, last, ⟨isLast, _⟩, isTag⟩)
        · exact absurd none.symm some_
        · rw [isTag, isLast, none]
          exact ⟨rfl, rfl⟩
    | cons second more =>
      simp only [fileBelow, List.cons.injEq]
      constructor
      · rintro ⟨isTag, below⟩
        have isRest : second :: more = rest := fileBelow_inj below
        exact Or.inl ⟨by rw [← isRest]; simp, isTag, isRest⟩
      · rintro (⟨_, isTag, isRest⟩ | ⟨_, last, wrong, _⟩)
        · exact ⟨isTag, by rw [isRest]⟩
        · exact absurd wrong.2 (by simp)

theorem partsOfName_nil_iff : partsOfName name = [] ↔ spelling name = "" := by
  rw [partsOfName_eq_iff (by simp)]
  rfl

/-- A name is one part when its spelling is. -/
theorem partsOfName_single_iff {last : String} :
    partsOfName name = [last] ↔ Part (spelling name) ∧ spelling name = last := by
  have spelled : String.ofList (Text.joined '.' ([last].map String.toList)) = last := by
    simp [Text.joined]
  constructor
  · intro single
    have isPart : Part last := part_of_name last (single ▸ List.mem_singleton_self last)
    have same := (partsOfName_eq_iff (by simpa using isPart)).1 single
    rw [spelled] at same
    exact ⟨same ▸ isPart, same⟩
  · rintro ⟨isPart, same⟩
    rw [same] at isPart
    rw [partsOfName_eq_iff (by simpa using isPart), spelled, same]

/-- A name has one more part in front when its spelling has it, and a dot. -/
theorem partsOfName_cons_iff (some_ : partsOfName right ≠ []) :
    partsOfName left = tag :: partsOfName right ↔
      Part tag ∧ spelling left = tag ++ "." ++ spelling right := by
  have spelled : String.ofList (Text.joined '.' ((tag :: partsOfName right).map String.toList)) =
      tag ++ "." ++ spelling right := by
    rw [joined_cons, behind, if_neg some_, spelling_eq right]
    apply String.toList_injective
    simp
  have areParts : Part tag → ∀ part ∈ tag :: partsOfName right, Part part := by
    intro isPart part member
    rcases List.mem_cons.1 member with rfl | among
    · exact isPart
    · exact part_of_name part among
  constructor
  · intro same
    have isPart : Part tag := part_of_name tag (same ▸ List.mem_cons_self)
    exact ⟨isPart, ((partsOfName_eq_iff (areParts isPart)).1 same).trans spelled⟩
  · rintro ⟨isPart, same⟩
    exact (partsOfName_eq_iff (areParts isPart)).2 (same.trans spelled.symm)

theorem hides_iff (plain : (split left).2 = none) (version : (split right).2 = some tag) :
    Hides extension left right ↔ segments extension left = segments extension right := by
  have isTag : ∀ other, (split right).2 = some other ↔ other = tag := by
    intro other
    rw [version, Option.some.injEq, eq_comm]
  rw [segments_eq, segments_eq, plain, version, Option.toList_none, Option.toList_some,
    List.nil_append, List.singleton_append, fileBelow_eq_cons_iff]
  unfold Hides
  simp only [plain, isTag, exists_eq_left, true_and]
  by_cases none : partsOfName right = []
  · have empty := partsOfName_nil_iff.1 none
    simp only [none, empty, ne_eq, not_true_eq_false, false_and, false_or, true_and,
      partsOfName_single_iff]
    constructor
    · rintro ⟨isPart, isTag⟩
      refine ⟨spelling left, ⟨isPart, rfl⟩, ?_⟩
      rw [isTag]
      rfl
    · rintro ⟨last, ⟨isPart, rfl⟩, isTag⟩
      refine ⟨isPart, ?_⟩
      rw [isTag]
      rfl
  · have some_ : spelling right ≠ "" := fun empty => none (partsOfName_nil_iff.2 empty)
    simp only [none, some_, ne_eq, not_false_eq_true, false_and, or_false, true_and,
      partsOfName_cons_iff none]

theorem not_hides_of_version (version : (split left).2 = some tag) : ¬Hides extension left right :=
  fun hides => absurd (hides.1.symm.trans version) (by simp)

theorem not_hides_of_plain (plain : (split right).2 = none) : ¬Hides extension left right := by
  rintro ⟨_, tag, version, _⟩
  exact absurd (plain.symm.trans version) (by simp)

/-- Names have the same segments exactly when they meet. -/
theorem segments_same_iff : segments extension left = segments extension right ↔
    Meet extension left right := by
  have sameVersion : (split left).2 = (split right).2 →
      (segments extension left = segments extension right ↔
        spelling left = spelling right) := by
    intro version
    rw [segments_eq, segments_eq, version, List.append_right_inj, ← partsOfName_inj]
    exact ⟨fileBelow_inj, fun same => by rw [same]⟩
  unfold Meet
  cases ofLeft : (split left).2 with
  | none =>
    cases ofRight : (split right).2 with
    | none =>
      simp [sameVersion (ofLeft.trans ofRight.symm), not_hides_of_plain ofLeft,
        not_hides_of_plain ofRight]
    | some tag =>
      simp [← hides_iff ofLeft ofRight, not_hides_of_version ofRight]
  | some tag =>
    cases ofRight : (split right).2 with
    | none =>
      rw [eq_comm (a := segments extension left)]
      simp [← hides_iff ofRight ofLeft, not_hides_of_version ofLeft]
    | some other =>
      by_cases version : tag = other
      · subst version
        simp [sameVersion (ofLeft.trans ofRight.symm), not_hides_of_version ofLeft,
          not_hides_of_version ofRight]
      · have apart : segments extension left ≠ segments extension right := by
          rw [segments_eq, segments_eq, ofLeft, ofRight]
          exact fun same => version (List.cons.inj same).1
        simp [apart, version, not_hides_of_version ofLeft, not_hides_of_version ofRight]

/-- A name is its base and its version. -/
theorem split_inj (same : split left = split right) : left = right := by
  cases version : (split right).2 with
  | none =>
    rw [← split_plain version, ← split_plain ((congrArg Prod.snd same).trans version), same]
  | some tag =>
    apply String.toList_injective
    rw [split_version version, split_version ((congrArg Prod.snd same).trans version), same]

/-- A name with no more dots than its place tells apart. -/
def Terse (name : String) : Prop := spelling name = (split name).1

/-- Two names that pass the check of places have one file exactly when they meet, and different
terse names do not meet unless one of them has a version and the other has none. -/
theorem places_meet_iff :
    (∀ (left right extension : String) (directory : Path), checkPlace left = .ok () →
      checkPlace right = .ok () → (∀ c ∈ extension.toList, c ≠ '/') →
      ((place left directory extension).same (place right directory extension) = true ↔
        Meet extension left right)) ∧
    ∀ left right extension : String, Terse left → Terse right →
      (split left).2.isSome = (split right).2.isSome → Meet extension left right → left = right := by
  refine ⟨fun left right extension directory passesLeft passesRight apart => ?_,
    fun left right extension terseLeft terseRight versions meet => ?_⟩
  · have noSlash : ∀ c ∈ extension.toList, (c == '/') = false :=
      fun c inside => beq_eq_false_iff_ne.2 (apart c inside)
    have named : Function.Injective (List.map Path.Component.named) :=
      List.map_injective_iff.2 fun _ _ same => Path.Component.named.inj same
    unfold Path.same
    rw [beq_iff_eq, components_place noSlash (placeable_of_checkPlace passesLeft),
      components_place noSlash (placeable_of_checkPlace passesRight), List.append_right_inj,
      named.eq_iff, segments_same_iff]
  · rcases meet with ⟨version, base⟩ | hides | hides
    · rw [terseLeft, terseRight] at base
      exact split_inj (Prod.ext base version)
    · obtain ⟨plain, tag, version, _⟩ := hides
      rw [plain, version] at versions
      exact absurd versions (by simp)
    · obtain ⟨plain, tag, version, _⟩ := hides
      rw [plain, version] at versions
      exact absurd versions (by simp)

instance (text : String) : Decidable (Terse text) := inferInstanceAs (Decidable (_ = _))

/-- The version `a` of `b` has the file of `a.b`, and `a..b` has one of its own. -/
theorem version_place_same :
    (checkPlace "a.b" = .ok () ∧ checkPlace "b|a" = .ok () ∧
      (place "a.b" (.ofText "t") "eo").same (place "b|a" (.ofText "t") "eo") = true) ∧
    Terse "a.b" ∧ Terse "a..b" ∧ ¬Meet "eo" "a.b" "a..b" := by
  have plain : checkPlace "a.b" = .ok () := by decide +kernel
  have versioned : checkPlace "b|a" = .ok () := by decide +kernel
  have isPart : Part "a" := ⟨['a'], by simp, by simp, Or.inl (by simp)⟩
  have hides : Hides "eo" "a.b" "b|a" := by
    refine ⟨by decide +kernel, "a", by decide +kernel, Or.inl ⟨by decide +kernel, isPart, ?_⟩⟩
    decide +kernel
  have terse : Terse "a.b" := by decide +kernel
  have terseDotted : Terse "a..b" := by decide +kernel
  refine ⟨⟨plain, versioned, ?_⟩, terse, terseDotted, fun meet => ?_⟩
  · exact (places_meet_iff.1 "a.b" "b|a" "eo" (.ofText "t") plain versioned (by simp)).2
      (Or.inr (Or.inl hides))
  · have same := places_meet_iff.2 "a.b" "a..b" "eo" terse terseDotted (by decide +kernel) meet
    exact absurd same (by decide)

/-- Different names that pass the check of places can have one file. -/
theorem places_not_distinct :
    ¬∀ (left right extension : String) (directory : Path), checkPlace left = .ok () →
      checkPlace right = .ok () → (∀ c ∈ extension.toList, c ≠ '/') → left ≠ right →
      (place left directory extension).same (place right directory extension) = false := by
  intro distinct
  have apart := distinct "a.b" "b|a" "eo" (.ofText "t") (by decide +kernel) (by decide +kernel)
    (by simp) (by decide)
  exact absurd apart (by decide +kernel)

end ObjectName

end EoAssembly
