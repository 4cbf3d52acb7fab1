import EoAssembly.ObjectName
import EoAssembly.Proofs.Path

/-!
Contract: the place of an object is names behind its directory.

A name whose base and version hold no separators, and whose version is no dots,
has a place below every directory: behind the directory come the version, one
name for each part of the base, and none of them leads anywhere else.

Owns `ObjectName.segments`, the names behind the directory, `Placeable`, and the
components of `place`.
-/

namespace EoAssembly.ObjectName

open Path (IsName Names Component)

/-! ## Which texts are names -/

/-- A text without slashes that holds more than dots is a name. -/
theorem isName_of_char {name : String} {c : Char} (member : c ∈ name.toList) (notDot : c ≠ '.')
    (noSlash : ∀ c ∈ name.toList, (c == '/') = false) : IsName name := by
  refine ⟨Path.names_iff.2 ⟨?_, ?_⟩, noSlash⟩
  · unfold Path.silent
    rw [Bool.or_eq_false_iff, beq_eq_false_iff_ne, beq_eq_false_iff_ne]
    constructor
    · intro empty
      rw [empty] at member
      exact absurd member (by simp)
    · intro dot
      rw [dot] at member
      exact notDot (by simpa using member)
  · intro dots
    rw [dots] at member
    exact notDot (by simpa using member)

/-- A text without dots and slashes. -/
def Dotless (text : String) : Prop := ∀ c ∈ text.toList, c ≠ '.' ∧ (c == '/') = false

instance (text : String) : Decidable (Dotless text) :=
  List.decidableBAll (fun c => c ≠ '.' ∧ (c == '/') = false) text.toList

theorem Dotless.exists_char {text : String} (dotless : Dotless text) (some_ : text ≠ "") :
    ∃ c ∈ text.toList, c ≠ '.' := by
  obtain ⟨c, rest, chars⟩ := List.exists_cons_of_ne_nil
    (fun empty => some_ (String.toList_eq_nil_iff.1 empty))
  have member : c ∈ text.toList := by
    rw [chars]
    exact List.mem_cons_self
  exact ⟨c, member, (dotless c member).1⟩

/-- An extension is a text without dots and slashes. -/
structure IsExtension (extension : String) : Prop where
  some_ : extension ≠ ""
  dotless : Dotless extension

instance (extension : String) : Decidable (IsExtension extension) :=
  decidable_of_iff (extension ≠ "" ∧ Dotless extension)
    ⟨fun parts => ⟨parts.1, parts.2⟩, fun plain => ⟨plain.some_, plain.dotless⟩⟩

theorem IsExtension.noSlash {extension : String} (plain : IsExtension extension) :
    ∀ c ∈ extension.toList, (c == '/') = false :=
  fun c inside => (plain.dotless c inside).2

theorem toList_extended (last extension : String) :
    (s!"{last}.{extension}").toList = last.toList ++ '.' :: extension.toList := by
  simp [toString]

/-- A name with an extension is a name, whatever the extension is. -/
theorem isName_extended {last extension : String} (name : IsName last)
    (plain : ∀ c ∈ extension.toList, (c == '/') = false) : IsName s!"{last}.{extension}" := by
  have chars := toList_extended last extension
  have lastSome : last.toList ≠ [] := fun none => name.names.ne_empty (String.toList_eq_nil_iff.1 none)
  have lastPlain : last.toList ≠ ['.'] := fun dot =>
    name.names.ne_dot (String.toList_injective dot)
  refine ⟨Path.names_iff.2 ⟨?_, fun up => ?_⟩, fun c inside => ?_⟩
  · unfold Path.silent
    rw [Bool.or_eq_false_iff, beq_eq_false_iff_ne, beq_eq_false_iff_ne]
    constructor
    · intro empty
      rw [empty] at chars
      simp at chars
    · intro dot
      rw [dot] at chars
      cases letters : last.toList with
      | nil => exact lastSome letters
      | cons first rest =>
        rw [letters] at chars
        simp at chars
  · rw [up] at chars
    cases letters : last.toList with
    | nil => exact lastSome letters
    | cons first rest =>
      rw [letters] at chars lastPlain
      cases rest with
      | nil => exact lastPlain (by simp at chars; rw [chars.1])
      | cons second more => simp at chars
  · rw [chars, List.mem_append, List.mem_cons] at inside
    rcases inside with front | dot | behind
    · exact name.noSlash c front
    · rw [dot]
      decide
    · exact plain c behind

theorem placeParts_names {parts : List String} (dotless : ∀ part ∈ parts, Dotless part) :
    ∀ dotted, ∀ part ∈ placeParts dotted parts, IsName part := by
  induction parts with
  | nil => simp [placeParts]
  | cons first rest inductionHypothesis =>
    intro dotted part member
    have later := inductionHypothesis fun other among =>
      dotless other (List.mem_cons_of_mem first among)
    have here := dotless first List.mem_cons_self
    unfold placeParts at member
    split at member
    · exact later true part member
    · next some_ =>
      rcases List.mem_cons.1 member with own | behind
      · obtain ⟨c, among, notDot⟩ := here.exists_char some_
        rw [own]
        split
        · have chars : ("." ++ first).toList = '.' :: first.toList := by
            simp [String.toList_append]
          refine isName_of_char (c := c) (by rw [chars]; simp [among]) notDot fun d inside => ?_
          rw [chars] at inside
          rcases List.mem_cons.1 inside with dot | behind
          · rw [dot]
            decide
          · exact (here d behind).2
        · exact isName_of_char among notDot fun d inside => (here d inside).2
      · exact later false part behind

/-! ## Places -/

/-- Parts as the names of directories and a file. -/
def fileBelow (extension : String) : List String → List String
  | [] => []
  | [last] => [s!"{last}.{extension}"]
  | part :: others => part :: fileBelow extension others

theorem fileBelow_concat (extension : String) (front : List String) (last : String) :
    fileBelow extension (front ++ [last]) = front ++ [s!"{last}.{extension}"] := by
  induction front with
  | nil => rfl
  | cons first rest inductionHypothesis =>
    cases rest with
    | nil => rfl
    | cons second more =>
      rw [List.cons_append, List.cons_append, fileBelow, ← List.cons_append, inductionHypothesis]
      · rfl
      · simp

/-- The names behind the directory of a place. -/
def segments (extension name : String) : List String :=
  (split name).2.toList ++
    fileBelow extension (placeParts false (Text.splitAll '.' (split name).1))

/-- A name whose places are below their directories. -/
structure Placeable (name : String) : Prop where
  version : ∀ tag ∈ (split name).2.toList, IsName tag
  parts : ∀ part ∈ Text.splitAll '.' (split name).1, Dotless part

theorem fileBelow_names {extension : String} (plain : ∀ c ∈ extension.toList, (c == '/') = false)
    {parts : List String} (names : ∀ part ∈ parts, IsName part) :
    ∀ segment ∈ fileBelow extension parts, IsName segment := by
  induction parts with
  | nil => simp [fileBelow]
  | cons first rest inductionHypothesis =>
    intro segment member
    have here := names first List.mem_cons_self
    cases rest with
    | nil =>
      rw [List.mem_singleton.1 member]
      exact isName_extended here plain
    | cons second more =>
      rcases List.mem_cons.1 member with own | behind
      · rw [own]
        exact here
      · exact inductionHypothesis (fun part among => names part (List.mem_cons_of_mem first among))
          segment behind

theorem segments_names {extension name : String} (plain : ∀ c ∈ extension.toList, (c == '/') = false)
    (placeable : Placeable name) : ∀ segment ∈ segments extension name, IsName segment := by
  intro segment member
  rcases List.mem_append.1 member with version | below
  · exact placeable.version segment version
  · exact fileBelow_names plain (placeParts_names placeable.parts false) segment below

theorem placeBelow_eq {extension : String} (plain : ∀ c ∈ extension.toList, (c == '/') = false) {parts : List String}
    (names : ∀ part ∈ parts, IsName part) (directory : Path) :
    (placeBelow directory extension parts).components =
        directory.components ++ (fileBelow extension parts).map Component.named ∧
      (parts ≠ [] → (placeBelow directory extension parts).EndsInName) := by
  induction parts generalizing directory with
  | nil => simp [placeBelow, fileBelow]
  | cons first rest inductionHypothesis =>
    have here := names first List.mem_cons_self
    cases rest with
    | nil =>
      have extended := isName_extended here plain
      exact ⟨Path.components_child directory extended,
        fun _ => Path.endsInName_child directory extended⟩
    | cons second more =>
      obtain ⟨components, ends⟩ := inductionHypothesis
        (fun part among => names part (List.mem_cons_of_mem first among)) (directory.child first)
      refine ⟨?_, fun _ => ends (by simp)⟩
      simp only [placeBelow, fileBelow] at components ⊢
      rw [components, Path.components_child directory here, List.append_assoc]
      rfl

theorem placeBelow_segments {extension : String} (plain : ∀ c ∈ extension.toList, (c == '/') = false)
    {parts : List String} (names : ∀ part ∈ parts, IsName part) {directory : Path}
    (ends : directory.EndsInName) :
    placeBelow directory extension parts = ⟨directory.segments ++ fileBelow extension parts⟩ := by
  induction parts generalizing directory with
  | nil => simp [placeBelow, fileBelow]
  | cons first rest inductionHypothesis =>
    have here := names first List.mem_cons_self
    cases rest with
    | nil => rw [placeBelow, Path.child_name _ (isName_extended here plain), ends.base_eq]; rfl
    | cons second more =>
      rw [placeBelow, inductionHypothesis
        (fun part among => names part (List.mem_cons_of_mem first among))
        (Path.endsInName_child directory here), Path.child_name _ here, ends.base_eq,
        List.append_assoc]
      · rfl
      · simp

/-- The directory of the version of a name, or the one of all names. -/
def versionedIn (name : String) (directory : Path) : Path :=
  match (split name).2 with
  | some tag => directory.child tag
  | none => directory

theorem place_eq (extension name : String) (directory : Path) :
    place name directory extension = placeBelow (versionedIn name directory) extension
      (placeParts false (Text.splitAll '.' (split name).1)) := rfl

theorem components_versionedIn {name : String} (placeable : Placeable name) (directory : Path) :
    (versionedIn name directory).components =
      directory.components ++ (split name).2.toList.map Component.named := by
  have plain := placeable.version
  unfold versionedIn
  cases version : (split name).2 with
  | none => simp
  | some tag => exact Path.components_child directory (plain tag (by simp [version]))

theorem endsInName_versionedIn {name : String} (placeable : Placeable name) {directory : Path}
    (ends : directory.EndsInName) : (versionedIn name directory).EndsInName := by
  have plain := placeable.version
  unfold versionedIn
  cases version : (split name).2 with
  | none => exact ends
  | some tag => exact Path.endsInName_child directory (plain tag (by simp [version]))

/-- The place of an object is its names behind the directory. -/
theorem components_place {extension name : String} (plain : ∀ c ∈ extension.toList, (c == '/') = false)
    (placeable : Placeable name) (directory : Path) :
    (place name directory extension).components =
      directory.components ++ (segments extension name).map Component.named := by
  have names := placeParts_names placeable.parts false
  rw [place_eq, (placeBelow_eq plain names _).1, components_versionedIn placeable, segments,
    List.map_append, List.append_assoc]

theorem endsInName_place {extension name : String} (plain : ∀ c ∈ extension.toList, (c == '/') = false)
    (placeable : Placeable name) {directory : Path} (ends : directory.EndsInName) :
    (place name directory extension).EndsInName := by
  have names := placeParts_names placeable.parts false
  rw [place_eq]
  by_cases none : placeParts false (Text.splitAll '.' (split name).1) = []
  · rw [none]
    exact endsInName_versionedIn placeable ends
  · exact (placeBelow_eq plain names _).2 none

/-- The segments of a place are those of the directory and the names behind it. -/
theorem place_segments {extension name : String} (plain : ∀ c ∈ extension.toList, (c == '/') = false)
    (placeable : Placeable name) {directory : Path} (ends : directory.EndsInName) :
    place name directory extension = ⟨directory.segments ++ segments extension name⟩ := by
  have names := placeParts_names placeable.parts false
  rw [place_eq, placeBelow_segments plain names (endsInName_versionedIn placeable ends)]
  unfold versionedIn segments
  have version := placeable.version
  cases same : (split name).2 with
  | none => rfl
  | some tag =>
    rw [same] at version
    simp only [Path.child_name _ (version tag (by simp)), ends.base_eq, List.append_assoc]
    rfl

/-! ## Checked names -/

theorem splitAll_dotless {base : String} (noSlash : ∀ c ∈ base.toList, (c == '/') = false) :
    ∀ part ∈ Text.splitAll '.' base, Dotless part := by
  intro part member c inside
  unfold Text.splitAll at member
  obtain ⟨piece, among, same⟩ := List.mem_map.1 member
  rw [← same, String.toList_ofList] at inside
  refine ⟨?_, ?_⟩
  · have apart := Text.pieces_plain base.toList piece among c inside
    simpa using apart
  · exact noSlash c (Text.mem_of_mem_pieces among inside)

/-- A name that passes the check of places has its places below their directories. -/
theorem placeable_of_checkPlace {name : String} (passes : checkPlace name = .ok ()) :
    Placeable name := by
  unfold checkPlace at passes
  simp only at passes
  split at passes
  · exact absurd passes (by simp)
  · next fine =>
    simp only [Bool.or_eq_true, not_or, Bool.not_eq_true] at fine
    have noSlash : ∀ text, holdsSeparator text = false →
        ∀ c ∈ text.toList, (c == '/') = false := by
      intro text plain c inside
      unfold holdsSeparator Text.holds at plain
      rw [Bool.or_eq_false_iff] at plain
      rw [beq_eq_false_iff_ne]
      intro slash
      rw [slash] at inside
      have held := plain.1
      rw [List.contains_iff_mem.2 inside] at held
      exact absurd held (by simp)
    constructor
    · intro tag member
      have version := Option.mem_toList.1 member
      have good := fine.2
      rw [version] at good
      simp only [Option.any_some] at good
      unfold badVersion at good
      simp only [Bool.or_eq_false_iff, beq_eq_false_iff_ne] at good
      obtain ⟨⟨⟨notEmpty, notDot⟩, notUp⟩, plain⟩ := good
      refine ⟨Path.names_iff.2 ⟨?_, notUp⟩, noSlash tag plain⟩
      simp [Path.silent, notEmpty, notDot]
    · exact splitAll_dotless (noSlash _ fine.1)

end EoAssembly.ObjectName
