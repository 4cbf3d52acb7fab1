import EoAssembly.Proofs.Build.Spelling
import EoAssembly.Proofs.Disk.Walk
import EoAssembly.Proofs.Text

/-!
Contract: where the place of a base is that may hold slashes.

The parts of a base are put behind a directory one after the other, and each of them may lead
several names down.  None of them leads up, since a part has a dot at its start at most.  A part
that starts with a slash stands alone; without such a part, a place is names behind its directory,
whatever the directory is.

Owns `ObjectName.Relative` and the components of the places of relative bases.
-/

namespace EoAssembly

/-! ## Pieces -/

namespace Text

theorem sublist_of_mem_pieces {separates : Char → Bool} {text part : List Char}
    (member : part ∈ pieces separates text) : part.Sublist text := by
  induction text generalizing part with
  | nil => simp_all [pieces]
  | cons c rest inductionHypothesis =>
    rw [pieces] at member
    split at member
    · rcases List.mem_cons.1 member with empty | later
      · rw [empty]
        exact List.nil_sublist _
      · exact (inductionHypothesis later).cons c
    · cases parts : pieces separates rest with
      | nil => exact absurd parts (pieces_ne_nil separates rest)
      | cons first others =>
        rw [parts] at member inductionHypothesis
        rcases List.mem_cons.1 member with here | later
        · rw [here]
          exact (inductionHypothesis List.mem_cons_self).cons_cons c
        · exact (inductionHypothesis (List.mem_cons_of_mem first later)).cons c

/-- What stands behind a text without a separator belongs to its last piece. -/
theorem pieces_append_end {separates : Char → Bool} {tail : List Char}
    (plain : ∀ c ∈ tail, separates c = false) (text : List Char) :
    ∃ front last, pieces separates text = front ++ [last] ∧
      pieces separates (text ++ tail) = front ++ [last ++ tail] := by
  induction text with
  | nil => exact ⟨[], [], rfl, pieces_of_none plain⟩
  | cons c rest inductionHypothesis =>
    obtain ⟨front, last, before, after⟩ := inductionHypothesis
    by_cases found : separates c = true
    · refine ⟨[] :: front, last, ?_, ?_⟩
      · simp [pieces, found, before]
      · simp [pieces, found, after]
    · cases front with
      | nil => exact ⟨[], c :: last, by simp [pieces, found, before], by simp [pieces, found, after]⟩
      | cons first others =>
        refine ⟨(c :: first) :: others, last, ?_, ?_⟩
        · simp [pieces, found, before]
        · simp [pieces, found, after]

end Text

/-! ## Relative paths -/

namespace Path

theorem isAbsolute_ofText {text : String} :
    (ofText text).isAbsolute = true ↔ ∃ rest, text.toList = '/' :: rest := by
  unfold ofText Text.splitAll
  cases letters : text.toList with
  | nil => exact iff_of_false (by decide) (by simp)
  | cons c rest =>
    obtain ⟨first, others, pieces⟩ :=
      List.exists_cons_of_ne_nil (Text.pieces_ne_nil (· == '/') rest)
    by_cases slash : c = '/'
    · rw [slash]
      exact iff_of_true (by simp [Text.pieces, pieces, isAbsolute]) ⟨rest, rfl⟩
    · have apart : (c == '/') = false := beq_eq_false_iff_ne.2 slash
      refine iff_of_false ?_ fun starts => slash (List.cons.inj starts.choose_spec).1
      cases others with
      | nil => simp [Text.pieces, apart, pieces, isAbsolute]
      | cons second more => simp [Text.pieces, apart, pieces, isAbsolute]

theorem join_relative {path : Path} {segments : List String}
    (relative : (⟨segments⟩ : Path).isAbsolute = false) :
    path.join ⟨segments⟩ = ⟨path.base ++ segments⟩ := by
  unfold join base
  rw [relative]
  simp only [Bool.false_eq_true, if_false]
  split <;> rfl

/-- Segments behind a path that is not empty are the last components of the result. -/
theorem components_join_relative {path : Path} {segments : List String} (open_ : path.base ≠ [])
    (some_ : segments ≠ []) (relative : (⟨segments⟩ : Path).isAbsolute = false) :
    (path.join ⟨segments⟩).components = path.components ++ segments.filterMap componentOf := by
  rw [join_relative relative]
  obtain ⟨written⟩ := path
  obtain ⟨head, rest, split⟩ := List.exists_cons_of_ne_nil open_
  have own : (⟨written⟩ : Path).components =
      firstComponents head ++ rest.filterMap componentOf := by
    unfold base at split
    simp only at split
    split at split
    · next closed =>
      -- The empty last segment names nothing.
      obtain ⟨before, same⟩ := List.getLast?_eq_some_iff.1 closed
      rw [same, List.dropLast_concat] at split
      have silentEmpty : [""].filterMap componentOf = [] := by decide
      rw [same, split, List.cons_append, components_cons fun _ => by simp, List.filterMap_append,
        silentEmpty, List.append_nil]
    · next notClosed =>
      rw [split] at notClosed ⊢
      refine components_cons fun empty alone => notClosed ?_
      rw [empty, alone]
      rfl
  rw [split, own, List.cons_append, components_cons fun _ => by simp [some_],
    List.filterMap_append, List.append_assoc]

end Path

/-! ## Places of relative bases -/

namespace ObjectName

open Path (Component Names)

variable {extension base part : String} {parts : List String} {directory : Path}

/-- No part of a base between its dots starts with a slash. -/
def Relative (base : String) : Prop :=
  ∀ part ∈ partsOf false base.toList, ∀ rest, part.toList ≠ '/' :: rest

/-- A base without slashes is relative. -/
theorem relative_of_noSlash (plain : '/' ∉ base.toList) : Relative base := by
  intro part member rest starts
  have dotless : ∀ piece ∈ Text.splitAll '.' base, Dotless piece := splitAll_dotless fun c inside => by
    rw [beq_eq_false_iff_ne]
    intro slash
    exact plain (slash ▸ inside)
  have isName := placeParts_names dotless false part member
  have noSlash := isName.noSlash '/' (by rw [starts]; exact List.mem_cons_self)
  exact absurd noSlash (by decide)

/-- The components of a text between slashes. -/
def componentsIn (text : String) : List Component :=
  (Text.splitAll '/' text).filterMap Path.componentOf

/-- A part leads down only. -/
theorem Part.named (isPart : Part part) : ∀ component ∈ componentsIn part,
    ∃ name, component = .named name := by
  intro component member
  obtain ⟨segment, among, stands⟩ := List.mem_filterMap.1 member
  obtain ⟨piece, inPieces, rfl⟩ := List.mem_map.1 among
  obtain ⟨letters, _, dotless, spelled⟩ := isPart
  have few : part.toList.count '.' ≤ 1 := by
    have none : letters.count '.' = 0 := List.count_eq_zero.2 fun dot => dotless '.' dot rfl
    rcases spelled with same | dotted
    · have count := congrArg (List.count '.') same
      omega
    · have count := congrArg (List.count '.') dotted
      rw [List.count_cons_self] at count
      omega
  have notUp : String.ofList piece ≠ ".." := by
    intro up
    have chars : piece = ['.', '.'] := by
      have letters := congrArg String.toList up
      rwa [String.toList_ofList] at letters
    have fewer := (Text.sublist_of_mem_pieces inPieces).count_le '.'
    rw [chars] at fewer
    exact absurd (Nat.le_trans fewer few) (by decide)
  unfold Path.componentOf at stands
  split at stands
  · exact absurd stands (by simp)
  · exact ⟨_, (Option.some.inj stands).symm⟩

/-- The last segment of a text with an extension is a name, and the others are those of the text. -/
theorem splitAll_extended (plain : ∀ c ∈ extension.toList, (c == '/') = false)
    (some_ : ∃ c ∈ extension.toList, c ≠ '.') (last : String) :
    ∃ front final, Text.splitAll '/' s!"{last}.{extension}" = front ++ [final] ∧ Names final ∧
      ∀ segment ∈ front, segment ∈ Text.splitAll '/' last := by
  have tail : ∀ c ∈ '.' :: extension.toList, (c == '/') = false := by
    intro c member
    rcases List.mem_cons.1 member with dot | inside
    · rw [dot]
      decide
    · exact plain c inside
  obtain ⟨front, final, before, after⟩ := Text.pieces_append_end tail last.toList
  refine ⟨front.map String.ofList, String.ofList (final ++ '.' :: extension.toList), ?_, ?_, ?_⟩
  · unfold Text.splitAll
    rw [toList_extended, after, List.map_append]
    rfl
  · obtain ⟨c, inside, notDot⟩ := some_
    refine (isName_of_char (c := c) ?_ notDot fun d among => ?_).names
    · rw [String.toList_ofList]
      simp [inside]
    · rw [String.toList_ofList] at among
      exact Text.pieces_plain (last.toList ++ '.' :: extension.toList)
        (final ++ '.' :: extension.toList) (by rw [after]; simp) d among
  · intro segment member
    unfold Text.splitAll
    rw [before, List.map_append]
    exact List.mem_append_left _ member

theorem named_extended (plain : ∀ c ∈ extension.toList, (c == '/') = false)
    (some_ : ∃ c ∈ extension.toList, c ≠ '.') (isPart : Part part) :
    ∀ component ∈ componentsIn s!"{part}.{extension}", ∃ name, component = .named name := by
  obtain ⟨front, final, segments, isName, among⟩ := splitAll_extended plain some_ part
  intro component member
  unfold componentsIn at member
  rw [segments, List.filterMap_append, List.mem_append] at member
  rcases member with inFront | isFinal
  · obtain ⟨segment, here, stands⟩ := List.mem_filterMap.1 inFront
    exact isPart.named component (List.mem_filterMap.2 ⟨segment, among segment here, stands⟩)
  · obtain ⟨segment, here, stands⟩ := List.mem_filterMap.1 isFinal
    rw [List.mem_singleton.1 here] at stands
    have names : Path.componentOf final = some (.named final) := isName
    rw [names] at stands
    exact ⟨final, (Option.some.inj stands).symm⟩

/-- A place is its parts put behind the directory, one after the other. -/
theorem placeBelow_foldl (parts : List String) (directory : Path) :
    placeBelow directory extension parts = (fileBelow extension parts).foldl Path.child directory := by
  induction parts generalizing directory with
  | nil => rfl
  | cons part rest inductionHypothesis =>
    cases rest with
    | nil => rfl
    | cons second more => exact inductionHypothesis (directory.child part)

/-- Texts put behind a path add their components. -/
theorem components_foldl {texts : List String} (open_ : directory.base ≠ [])
    (relative : ∀ text ∈ texts, ∀ rest, text.toList ≠ '/' :: rest) :
    (texts.foldl Path.child directory).components =
        directory.components ++ texts.flatMap componentsIn ∧
      (texts.foldl Path.child directory).base ≠ [] := by
  induction texts generalizing directory with
  | nil => simpa using open_
  | cons text rest inductionHypothesis =>
    have notAbsolute : (Path.ofText text).isAbsolute = false := by
      rw [← Bool.not_eq_true, Path.isAbsolute_ofText]
      rintro ⟨tail, starts⟩
      exact relative text List.mem_cons_self tail starts
    have segments : Text.splitAll '/' text ≠ [] := by
      unfold Text.splitAll
      simpa using Text.pieces_ne_nil (· == '/') text.toList
    have here : (directory.child text).components = directory.components ++ componentsIn text :=
      Path.components_join_relative open_ segments notAbsolute
    have stays : (directory.child text).base ≠ [] := by
      have joined : directory.child text = ⟨directory.base ++ Text.splitAll '/' text⟩ :=
        Path.join_relative notAbsolute
      rw [joined]
      generalize directory.base = before at open_ ⊢
      unfold Path.base
      split
      · show (before ++ Text.splitAll '/' text).dropLast ≠ []
        rw [List.dropLast_append_of_ne_nil segments]
        exact List.append_ne_nil_of_left_ne_nil open_ _
      · exact List.append_ne_nil_of_left_ne_nil open_ _
    obtain ⟨components, base⟩ := inductionHypothesis stays fun other among =>
      relative other (List.mem_cons_of_mem text among)
    refine ⟨?_, base⟩
    rw [List.foldl_cons, components, here, List.flatMap_cons, List.append_assoc]

theorem fileBelow_relative (areParts : ∀ part ∈ parts, Part part)
    (relative : ∀ part ∈ parts, ∀ rest, part.toList ≠ '/' :: rest) :
    ∀ text ∈ fileBelow extension parts, ∀ rest, text.toList ≠ '/' :: rest := by
  induction parts with
  | nil => simp [fileBelow]
  | cons part others inductionHypothesis =>
    cases others with
    | nil =>
      intro text member rest starts
      rw [List.mem_singleton.1 member, toList_extended] at starts
      obtain ⟨letters, some_, _, spelled⟩ := areParts part List.mem_cons_self
      cases chars : part.toList with
      | nil => rcases spelled with same | same <;> simp_all
      | cons c more =>
        rw [chars] at starts
        refine relative part List.mem_cons_self more ?_
        rw [chars, (List.cons.inj starts).1]
    | cons second more =>
      intro text member
      rcases List.mem_cons.1 member with here | later
      · rw [here]
        exact relative part List.mem_cons_self
      · exact inductionHypothesis (fun other among => areParts other (List.mem_cons_of_mem part among))
          (fun other among => relative other (List.mem_cons_of_mem part among)) text later

theorem fileBelow_named (plain : ∀ c ∈ extension.toList, (c == '/') = false)
    (some_ : ∃ c ∈ extension.toList, c ≠ '.') (areParts : ∀ part ∈ parts, Part part) :
    ∀ component ∈ (fileBelow extension parts).flatMap componentsIn,
      ∃ name, component = .named name := by
  induction parts with
  | nil => simp [fileBelow]
  | cons part others inductionHypothesis =>
    have here := areParts part List.mem_cons_self
    intro component member
    cases others with
    | nil =>
      refine named_extended plain some_ here component ?_
      simpa [fileBelow] using member
    | cons second more =>
      rw [fileBelow, List.flatMap_cons, List.mem_append] at member
      · rcases member with own | later
        · exact here.named component own
        · exact inductionHypothesis
            (fun other among => areParts other (List.mem_cons_of_mem part among)) component later
      · simp

/-- The place of a base ends in the name of a file, or is the directory. -/
theorem endsInName_placeBelow (plain : ∀ c ∈ extension.toList, (c == '/') = false)
    (some_ : ∃ c ∈ extension.toList, c ≠ '.') (ends : directory.EndsInName) (parts : List String) :
    (placeBelow directory extension parts).EndsInName := by
  rw [placeBelow_foldl]
  rcases List.eq_nil_or_concat parts with empty | ⟨front, last, split⟩
  · rw [empty]
    exact ends
  · rw [split, List.concat_eq_append, fileBelow_concat, List.foldl_append]
    obtain ⟨before, final, segments, isName, _⟩ := splitAll_extended plain some_ last
    show ((front.foldl Path.child directory).join
      ⟨Text.splitAll '/' s!"{last}.{extension}"⟩).EndsInName
    rw [segments]
    unfold Path.join
    split
    · exact ⟨before, final, rfl, isName⟩
    · split
      · exact ⟨_, final, (List.append_assoc _ before [final]).symm, isName⟩
      · exact ⟨_, final, (List.append_assoc _ before [final]).symm, isName⟩

/-- The names behind the directory of the place of a relative base. -/
def inside (extension base : String) : List String :=
  namesOf ((fileBelow extension (partsOf false base.toList)).flatMap componentsIn)

theorem map_namesOf {components : List Component}
    (named : ∀ component ∈ components, ∃ name, component = .named name) :
    (namesOf components).map Component.named = components := by
  induction components with
  | nil => rfl
  | cons component rest inductionHypothesis =>
    obtain ⟨name, rfl⟩ := named component List.mem_cons_self
    rw [namesOf, List.map_cons,
      inductionHypothesis fun other among => named other (List.mem_cons_of_mem _ among)]

theorem split_base (name : String) : split (split name).1 = ((split name).1, none) := by
  have noMark : Text.splitFirst versionMark (split name).1 = none := by
    unfold split Text.splitFirst
    cases found : Text.cut (· == versionMark) name.toList with
    | none => simp [found]
    | some parts => simp [Text.cut_before found]
  generalize (split name).1 = base at noMark ⊢
  unfold split
  rw [noMark]

/-- The place of a relative base is names behind any directory that ends in a name. -/
theorem components_place_inside {name : String} (plain : ∀ c ∈ extension.toList, (c == '/') = false)
    (some_ : ∃ c ∈ extension.toList, c ≠ '.') (relative : Relative (split name).1)
    (ends : directory.EndsInName) :
    (place (split name).1 directory extension).components =
        directory.components ++ (inside extension (split name).1).map Component.named ∧
      (place (split name).1 directory extension).EndsInName := by
  have isPlace : place (split name).1 directory extension =
      placeBelow directory extension (partsOf false (split name).1.toList) := by
    unfold place
    rw [split_base]
    rfl
  have open_ : directory.base ≠ [] := by
    rw [ends.base_eq]
    obtain ⟨before, last, segments, _⟩ := ends
    rw [segments]
    simp
  have areParts : ∀ part ∈ partsOf false (split name).1.toList, Part part := part_of_partsOf
  rw [isPlace]
  refine ⟨?_, endsInName_placeBelow plain some_ ends _⟩
  rw [placeBelow_foldl, (components_foldl open_ (fileBelow_relative areParts relative)).1, inside,
    map_namesOf (fileBelow_named plain some_ areParts)]

end ObjectName

end EoAssembly
