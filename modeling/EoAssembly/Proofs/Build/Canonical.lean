import EoAssembly.Proofs.Build.Spelling
import Mathlib.Data.List.Infix

/-!
Contract: which names and which paths are read back from each other.

The file of a name without a version says how that name is spelled.  So a name is read back
exactly when it has no more dots than its place tells apart.  A path of parts, the last of them
with the extension, is the place of the name that is read off it, below every directory.

Owns `ObjectName.Canonical`, `ObjectName.IsFile`, and these laws.
-/

namespace EoAssembly

/-- A path whose first component is a name comes behind a directory as it is written. -/
theorem Path.join_of_named {path : Path} {first : String} {others : List Path.Component}
    (named : path.components = .named first :: others) (directory : Path) :
    directory.join path = ⟨directory.base ++ path.segments⟩ ∧
      (directory.join path).components = directory.components ++ path.components := by
  obtain ⟨segments⟩ := path
  cases segments with
  | nil => exact absurd (show [] = _ from named) (by simp)
  | cons head rest =>
    have some_ : head ≠ "" := by
      rintro rfl
      cases rest with
      | nil => exact absurd (show [] = _ from named) (by simp)
      | cons second more =>
        rw [Path.components_cons fun _ => by simp] at named
        exact absurd named (by simp [Path.firstComponents])
    have loud : head ≠ "." := by
      rintro rfl
      rw [Path.components_cons fun empty => absurd empty some_] at named
      exact absurd named (by simp [Path.firstComponents])
    have isName : Path.Names head := by
      refine Path.names_iff.2 ⟨by simp [Path.silent, some_, loud], ?_⟩
      rintro rfl
      rw [Path.components_cons fun empty => absurd empty some_] at named
      exact absurd named (by simp [Path.firstComponents, Path.componentOf, Path.silent])
    have behind : directory.join ⟨head :: rest⟩ = ⟨directory.base ++ head :: rest⟩ := by
      have relative : (⟨head :: rest⟩ : Path).isAbsolute = false := by
        cases rest with
        | nil => rfl
        | cons second more => exact beq_eq_false_iff_ne.2 some_
      unfold Path.join Path.base
      rw [relative, if_neg Bool.false_ne_true]
      split <;> rfl
    refine ⟨behind, ?_⟩
    have alone : (⟨head :: rest⟩ : Path).components =
        .named head :: rest.filterMap Path.componentOf := by
      have component : Path.componentOf head = some (.named head) := isName
      rw [Path.components_cons fun empty => absurd empty some_]
      simp [Path.firstComponents, some_, loud, component]
    rw [behind, Path.components_base_cons directory isName, alone]

namespace ObjectName

open Path (Component IsName Names)

variable {extension name : String} {text : List Char} {most dots : Nat} {parts : List String}
  {path directory : Path}

/-! ## Dots that are told apart -/

/-- A text without dots at its end, with `most` dots at its start at most, and nowhere three of them
in a row. -/
structure Tidy (most : Nat) (text : List Char) : Prop where
  closed : ¬['.'] <:+ text
  opened : ¬List.replicate (most + 1) '.' <+: text
  inside : ¬['.', '.', '.'] <:+: text

/-- A name that doesn't end in a dot, doesn't start with two of them, and has no three in a row. -/
structure Canonical (name : String) : Prop where
  closed : ¬['.'] <:+ name.toList
  opened : ¬['.', '.'] <+: name.toList
  inside : ¬['.', '.', '.'] <:+: name.toList

instance (name : String) : Decidable (Canonical name) :=
  decidable_of_iff (¬['.'] <:+ name.toList ∧ ¬['.', '.'] <+: name.toList ∧
      ¬['.', '.', '.'] <:+: name.toList)
    ⟨fun parts => ⟨parts.1, parts.2.1, parts.2.2⟩,
      fun canonical => ⟨canonical.closed, canonical.opened, canonical.inside⟩⟩

theorem canonical_iff : Canonical name ↔ Tidy 1 name.toList :=
  ⟨fun canonical => ⟨canonical.closed, canonical.opened, canonical.inside⟩,
    fun tidy => ⟨tidy.closed, tidy.opened, tidy.inside⟩⟩

theorem tidy_nil : Tidy most [] := ⟨by simp, by simp, by simp⟩

theorem length_spell_le (most dots : Nat) (text : List Char) :
    (spell most dots text).length ≤ dots + text.length := by
  induction text generalizing most dots with
  | nil => simp [spell]
  | cons c rest inductionHypothesis =>
    have counted : (c :: rest).length = rest.length + 1 := rfl
    rw [spell, counted]
    split
    · have dotted := inductionHypothesis most (min most (dots + 1))
      omega
    · have letters := inductionHypothesis 2 0
      rw [List.length_append, List.length_replicate, List.length_cons]
      omega

/-- Behind a letter a text starts anew, and two dots may follow. -/
theorem tidy_letter {c : Char} (letter : c ≠ '.') (within : dots ≤ most) (small : dots ≤ 2)
    (rest : List Char) : Tidy most (List.replicate dots '.' ++ c :: rest) ↔ Tidy 2 rest := by
  have closed : ['.'] <:+ List.replicate dots '.' ++ c :: rest ↔ ['.'] <:+ rest := by
    rw [List.singleton_suffix_iff_getLast?_eq_some, List.singleton_suffix_iff_getLast?_eq_some,
      List.getLast?_append_of_ne_nil _ (List.cons_ne_nil c rest)]
    cases rest with
    | nil => simpa using letter
    | cons second more => rw [List.getLast?_cons_cons]
  have opened : ¬List.replicate (most + 1) '.' <+: List.replicate dots '.' ++ c :: rest := by
    rintro ⟨tail, same⟩
    have dot : (List.replicate (most + 1) '.' ++ tail)[dots]? = some '.' := by
      rw [List.getElem?_append_left (by rw [List.length_replicate]; omega), List.getElem?_replicate,
        if_pos (by omega)]
    have apart : (List.replicate dots '.' ++ c :: rest)[dots]? = some c := by
      rw [List.getElem?_append_right (by simp), List.length_replicate, Nat.sub_self]
      rfl
    rw [same] at dot
    exact letter (Option.some.inj (apart.symm.trans dot))
  have inside : ['.', '.', '.'] <:+: List.replicate dots '.' ++ c :: rest ↔
      ['.', '.', '.'] <:+: rest := by
    have apart : '.' ≠ c := Ne.symm letter
    match dots, small with
    | 0, _ | 1, _ | 2, _ => simp [List.replicate_succ, List.infix_cons_iff, apart]
  constructor
  · intro tidy
    have scattered : ¬['.', '.', '.'] <:+: rest := fun found => tidy.inside (inside.2 found)
    exact ⟨fun found => tidy.closed (closed.2 found), fun found => scattered found.isInfix,
      scattered⟩
  · intro tidy
    exact ⟨fun found => tidy.closed (closed.1 found), opened,
      fun found => tidy.inside (inside.1 found)⟩

/-- A text keeps all of its dots exactly when it is tidy. -/
theorem spell_eq_iff (text : List Char) (within : dots ≤ most) (small : most ≤ 2) :
    spell most dots text = List.replicate dots '.' ++ text ↔
      Tidy most (List.replicate dots '.' ++ text) := by
  induction text generalizing most dots with
  | nil =>
    cases dots with
    | zero => exact ⟨fun _ => tidy_nil, fun _ => rfl⟩
    | succ count =>
      rw [List.append_nil]
      refine ⟨fun same => absurd same (by simp [spell, List.replicate_succ]), fun tidy => ?_⟩
      exact absurd ⟨List.replicate count '.', List.replicate_succ'.symm⟩ tidy.closed
  | cons c rest inductionHypothesis =>
    rw [spell]
    split
    · next dot =>
      subst dot
      have moved : List.replicate dots '.' ++ '.' :: rest =
          List.replicate (dots + 1) '.' ++ rest := by
        rw [List.replicate_succ', List.append_assoc]
        rfl
      rw [moved]
      by_cases room : dots + 1 ≤ most
      · rw [Nat.min_eq_right room]
        exact inductionHypothesis room small
      · -- one dot too many is left out
        have full : dots = most := by omega
        subst full
        constructor
        · intro same
          have fewer := length_spell_le dots (min dots (dots + 1)) rest
          rw [same, List.length_append, List.length_replicate] at fewer
          omega
        · exact fun tidy => absurd (List.prefix_append _ rest) tidy.opened
    · next letter =>
      rw [tidy_letter letter within (within.trans small), List.append_right_inj, List.cons.injEq]
      have behind : spell 2 0 rest = rest ↔ Tidy 2 rest :=
        inductionHypothesis (Nat.zero_le 2) (Nat.le_refl 2)
      rw [behind]
      exact and_iff_right rfl

/-- A name without a version is spelled as it stands exactly when it is canonical. -/
theorem spelling_eq_self_iff (plain : (split name).2 = none) :
    spelling name = name ↔ Canonical name := by
  unfold spelling
  rw [split_plain plain, canonical_iff]
  have letters : spell 1 0 name.toList = List.replicate 0 '.' ++ name.toList ↔
      Tidy 1 (List.replicate 0 '.' ++ name.toList) :=
    spell_eq_iff name.toList (Nat.zero_le 1) (by omega)
  simp only [List.replicate_zero, List.nil_append] at letters
  rw [← letters]
  constructor
  · intro same
    simpa using congrArg String.toList same
  · intro same
    rw [same, String.ofList_toList]

/-! ## Paths of parts -/

/-- A path component that a name gives: letters behind one dot at most, none of which parts a name
or a path. -/
structure IsPart (part : String) : Prop where
  dotted : Part part
  plain : ∀ c ∈ part.toList, c ≠ '|' ∧ c ≠ '/'

/-- A path whose components are parts, the last of them with the extension behind it. -/
structure FileOf (extension : String) (parts : List String) (path : Path) : Prop where
  some_ : parts ≠ []
  areParts : ∀ part ∈ parts, IsPart part
  components : path.components = (fileBelow extension parts).map Component.named

/-- A relative path of parts with the extension. -/
def IsFile (extension : String) (path : Path) : Prop := ∃ parts, FileOf extension parts path

theorem IsPart.isName {part : String} (isPart : IsPart part) : IsName part := by
  obtain ⟨letters, some_, dotless, spelled⟩ := isPart.dotted
  obtain ⟨first, rest, rfl⟩ := List.exists_cons_of_ne_nil some_
  have member : first ∈ part.toList := by
    rcases spelled with same | same <;> rw [same] <;> simp
  exact isName_of_char member (dotless first List.mem_cons_self)
    fun c inside => beq_eq_false_iff_ne.2 (isPart.plain c inside).2

theorem dropExtension_fileBelow (extension : String) (parts : List String) :
    dropExtension extension (fileBelow extension parts) = parts := by
  rcases List.eq_nil_or_concat parts with rfl | ⟨front, last, rfl⟩
  · rfl
  · have dropped : Text.dropTail? ("." ++ extension) s!"{last}.{extension}" = some last := by
      rw [Text.dropTail?_eq_some]
      apply String.toList_injective
      rw [toList_extended]
      simp
    rw [List.concat_eq_append, fileBelow_concat, Build.dropExtension_concat, dropped]
    rfl

/-- What is read off a path of parts has a dot between each two of them. -/
theorem ofRelativePath_of_components
    (components : path.components = (fileBelow extension parts).map Component.named) :
    ofRelativePath path extension = Text.joinAll '.' parts := by
  unfold ofRelativePath
  rw [components, Build.namesOf_named, dropExtension_fileBelow]

/-- The place of a name reads as the spelling of that name. -/
theorem ofRelativePath_place (apart : ∀ c ∈ extension.toList, (c == '/') = false)
    (placeable : Placeable name) (plain : (split name).2 = none) :
    ofRelativePath (place name (.ofText "") extension) extension = spelling name := by
  have components : (place name (.ofText "") extension).components =
      (fileBelow extension (partsOfName name)).map Component.named := by
    rw [components_place apart placeable, segments_eq, plain]
    rfl
  rw [ofRelativePath_of_components components, spelling_eq]
  rfl

/-- Parts joined with dots are a name without a version that has these parts. -/
theorem split_joinAll (areParts : ∀ part ∈ parts, IsPart part) :
    (split (Text.joinAll '.' parts)).2 = none ∧ partsOfName (Text.joinAll '.' parts) = parts := by
  have letters : (Text.joinAll '.' parts).toList = Text.joined '.' (parts.map String.toList) := by
    unfold Text.joinAll
    rw [String.toList_ofList]
  have plain : (split (Text.joinAll '.' parts)).2 = none := by
    cases version : (split (Text.joinAll '.' parts)).2 with
    | none => rfl
    | some tag =>
      have mark : versionMark ∈ Text.joined '.' (parts.map String.toList) := by
        rw [← letters, split_version version]
        simp
      rcases Text.mem_joined mark with dot | ⟨_, member, inside⟩
      · exact absurd dot (by decide)
      · obtain ⟨part, among, rfl⟩ := List.mem_map.1 member
        exact absurd rfl ((areParts part among).plain versionMark inside).1
  refine ⟨plain, ?_⟩
  unfold partsOfName
  rw [split_plain plain, letters, partsOf_joined fun part member => (areParts part member).dotted]

/-- The place of parts is the path with them behind the directory. -/
theorem place_joinAll (apart : ∀ c ∈ extension.toList, (c == '/') = false) (some_ : parts ≠ [])
    (areParts : ∀ part ∈ parts, IsPart part) (directory : Path) :
    place (Text.joinAll '.' parts) directory extension =
      ⟨directory.base ++ fileBelow extension parts⟩ := by
  have names : ∀ part ∈ parts, IsName part := fun part member => (areParts part member).isName
  obtain ⟨plain, isParts⟩ := split_joinAll areParts
  have below : place (Text.joinAll '.' parts) directory extension =
      placeBelow directory extension parts := by
    rw [place_eq]
    unfold versionedIn
    rw [plain]
    exact congrArg (placeBelow directory extension) isParts
  rw [below]
  cases parts with
  | nil => exact absurd rfl some_
  | cons first rest =>
    cases rest with
    | nil =>
      exact Path.child_name directory (isName_extended (names first List.mem_cons_self) apart)
    | cons second more =>
      have here := names first List.mem_cons_self
      rw [placeBelow, placeBelow_segments apart
        (fun part member => names part (List.mem_cons_of_mem first member))
        (Path.endsInName_child directory here), Path.child_name directory here, List.append_assoc]
      · rfl
      · simp

namespace FileOf

variable {others : List String} {other : Path}

theorem names_fileBelow (apart : ∀ c ∈ extension.toList, (c == '/') = false)
    (file : FileOf extension parts path) : ∀ name ∈ fileBelow extension parts, Names name :=
  fun name member =>
    (fileBelow_names apart (fun part among => (file.areParts part among).isName) name member).names

theorem fileBelow_ne_nil (file : FileOf extension parts path) : fileBelow extension parts ≠ [] :=
  fun none => file.some_ (fileBelow_nil_iff.1 none)

theorem join (file : FileOf extension parts path) (directory : Path) :
    directory.join path = ⟨directory.base ++ path.segments⟩ ∧
      (directory.join path).components = directory.components ++ path.components := by
  obtain ⟨first, rest, split⟩ := List.exists_cons_of_ne_nil file.fileBelow_ne_nil
  have named : path.components = .named first :: rest.map Component.named := by
    rw [file.components, split, List.map_cons]
  exact Path.join_of_named named directory

/-- A path of parts is the place of the name that is read off it. -/
theorem place_same (apart : ∀ c ∈ extension.toList, (c == '/') = false)
    (file : FileOf extension parts path) (directory : Path) :
    (place (ofRelativePath path extension) directory extension).components =
      (directory.join path).components := by
  rw [ofRelativePath_of_components file.components, place_joinAll apart file.some_ file.areParts,
    Path.components_base_append directory file.fileBelow_ne_nil (file.names_fileBelow apart),
    (file.join directory).2, file.components]

/-- A path of parts that is written with names alone is written as its place is. -/
theorem place_eq (apart : ∀ c ∈ extension.toList, (c == '/') = false)
    (file : FileOf extension parts path) (written : ∀ segment ∈ path.segments, Names segment)
    (directory : Path) :
    place (ofRelativePath path extension) directory extension = directory.join path := by
  have segments : path.segments = fileBelow extension parts := by
    have named : Function.Injective (List.map Component.named) :=
      List.map_injective_iff.2 fun _ _ same => Component.named.inj same
    exact named ((Path.components_names written).symm.trans file.components)
  rw [ofRelativePath_of_components file.components, place_joinAll apart file.some_ file.areParts,
    (file.join directory).1, segments]

/-- Paths of parts are told apart by the names that are read off them. -/
theorem same_iff (file : FileOf extension parts path) (again : FileOf extension others other) :
    ofRelativePath path extension = ofRelativePath other extension ↔
      path.components = other.components := by
  constructor
  · intro same
    rw [ofRelativePath_of_components file.components,
      ofRelativePath_of_components again.components] at same
    rw [file.components, again.components, ← (split_joinAll file.areParts).2, same,
      (split_joinAll again.areParts).2]
  · intro same
    unfold ofRelativePath
    rw [same]

end FileOf

/-! ## Names and their files -/

/-- Whatever the extension is: a name without a version is read back from its place exactly when it
is empty or canonical, a path of parts is the place of the name that is read off it, below every
directory, and two such paths have one name exactly when they are the same. -/
theorem names_and_files_inverse (apart : ∀ c ∈ extension.toList, c ≠ '/') :
    (∀ name : String, (∀ c ∈ name.toList, c ≠ '|' ∧ c ≠ '/') →
      (ofRelativePath (place name (.ofText "") extension) extension = name ↔
        name = "" ∨ Canonical name)) ∧
    (∀ path, IsFile extension path → ∀ directory : Path,
      (place (ofRelativePath path extension) directory extension).same
        (directory.join path) = true ∧
      ((∀ segment ∈ path.segments, Names segment) →
        place (ofRelativePath path extension) directory extension = directory.join path)) ∧
    ∀ first second, IsFile extension first → IsFile extension second →
      (ofRelativePath first extension = ofRelativePath second extension ↔
        first.same second = true) := by
  have noSlash : ∀ c ∈ extension.toList, (c == '/') = false :=
    fun c inside => beq_eq_false_iff_ne.2 (apart c inside)
  refine ⟨fun name letters => ?_, ?_, ?_⟩
  · have plain : (split name).2 = none := by
      cases version : (split name).2 with
      | none => rfl
      | some tag =>
        have mark : versionMark ∈ name.toList := by
          rw [split_version version]
          simp
        exact absurd rfl (letters versionMark mark).1
    have placeable : Placeable name := by
      refine ⟨by simp [plain], splitAll_dotless fun c inside => ?_⟩
      rw [split_plain plain] at inside
      exact beq_eq_false_iff_ne.2 (letters c inside).2
    rw [ofRelativePath_place noSlash placeable plain, spelling_eq_self_iff plain]
    constructor
    · exact Or.inr
    · rintro (rfl | canonical)
      · exact canonical_iff.2 tidy_nil
      · exact canonical
  · rintro path ⟨parts, file⟩ directory
    refine ⟨?_, fun written => file.place_eq noSlash written directory⟩
    unfold Path.same
    rw [file.place_same noSlash directory, beq_self_eq_true]
  · rintro first second ⟨parts, file⟩ ⟨others, again⟩
    unfold Path.same
    rw [file.same_iff again, beq_iff_eq]

/-- The file of a hidden object below a hidden directory, written with a doubled slash. -/
def hiddenFile : Path := .ofText ".a//.b.eo"

theorem isFile_hiddenFile : IsFile "eo" hiddenFile := by
  have part : ∀ letter ∈ ['a', 'b'], IsPart (String.ofList ['.', letter]) := by
    intro letter member
    have plain : letter ≠ '.' ∧ letter ≠ '|' ∧ letter ≠ '/' := by
      obtain rfl | rfl : letter = 'a' ∨ letter = 'b' := by simpa using member
      · decide
      · decide
    exact ⟨⟨[letter], by simp, by simpa using plain.1, Or.inr (by simp)⟩, by simpa using plain.2⟩
  refine ⟨[".a", ".b"], by simp, fun name member => ?_, by decide +kernel⟩
  rcases List.mem_cons.1 member with rfl | last
  · exact part 'a' (by simp)
  · rw [List.mem_singleton.1 last]
    exact part 'b' (by simp)

/-- The name of a hidden object is read back from its file, one with a dot more is not, and the file
is the place of its name. -/
theorem hidden_read_back : (∀ c ∈ "eo".toList, c ≠ '/') ∧
    (∀ c ∈ ".a..b".toList, c ≠ '|' ∧ c ≠ '/') ∧ (∀ c ∈ ".a...b".toList, c ≠ '|' ∧ c ≠ '/') ∧
    IsFile "eo" hiddenFile ∧
    ofRelativePath (place ".a..b" (.ofText "") "eo") "eo" = ".a..b" ∧
    ofRelativePath (place ".a...b" (.ofText "") "eo") "eo" ≠ ".a...b" ∧
    (place (ofRelativePath hiddenFile "eo") (.ofText "s/") "eo").same
      ((Path.ofText "s/").join hiddenFile) = true := by
  have apart : ∀ c ∈ "eo".toList, c ≠ '/' := by simp
  have letters : ∀ c ∈ ".a..b".toList, c ≠ '|' ∧ c ≠ '/' := by simp
  have lettersToo : ∀ c ∈ ".a...b".toList, c ≠ '|' ∧ c ≠ '/' := by simp
  obtain ⟨names, files, _⟩ := names_and_files_inverse apart
  refine ⟨apart, letters, lettersToo, isFile_hiddenFile,
    (names _ letters).2 (Or.inr (by decide)), ?_,
    (files hiddenFile isFile_hiddenFile (.ofText "s/")).1⟩
  exact fun same => absurd ((names _ lettersToo).1 same) (by decide)

end ObjectName

end EoAssembly
