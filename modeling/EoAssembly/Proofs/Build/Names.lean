import EoAssembly.Proofs.Build.References
import EoAssembly.Proofs.Disk.Walk
import EoAssembly.Proofs.ObjectName
import EoAssembly.Proofs.Ordered
import EoAssembly.Proofs.Text

/-!
Contract: which names have places.

A name that a document refers to has names behind every directory, and an object
of a file with a strict name is placeable.

Owns the laws of `ObjectName.split`, and these two facts.
-/

namespace EoAssembly

namespace ObjectName

variable {name tag : String}

theorem split_version (found : (split name).2 = some tag) :
    name.toList = (split name).1.toList ++ versionMark :: tag.toList := by
  unfold split Text.splitFirst at found ⊢
  cases cutName : Text.cut (· == versionMark) name.toList with
  | none => simp [cutName] at found
  | some parts =>
    obtain ⟨before, after⟩ := parts
    obtain ⟨c, isMark, split⟩ := Text.cut_eq_some cutName
    simp only [cutName, Option.map_some, Option.some.injEq] at found ⊢
    rw [split, eq_of_beq isMark, ← found, String.toList_ofList, String.toList_ofList]

theorem split_plain (none : (split name).2 = none) : (split name).1 = name := by
  unfold split at none ⊢
  cases cutName : Text.splitFirst versionMark name with
  | none => rfl
  | some parts => simp [cutName] at none

theorem split_of_mark (member : versionMark ∈ name.toList) : (split name).2 ≠ none := by
  unfold split Text.splitFirst
  cases cutName : Text.cut (· == versionMark) name.toList with
  | none => exact absurd cutName (Text.cut_ne_none member (by simp))
  | some parts => simp

/-- A name with a version, or that doesn't start with a dot, has a file of its own. -/
theorem segments_ne_nil {extension : String}
    (starts : (split name).2 = none → ∃ c rest, name.toList = c :: rest ∧ c ≠ '.') :
    segments extension name ≠ [] := by
  unfold segments
  cases version : (split name).2 with
  | some tag => simp
  | none =>
    obtain ⟨c, rest, chars, notDot⟩ := starts version
    rw [split_plain version]
    unfold Text.splitAll
    have apart : (c == '.') = false := beq_eq_false_iff_ne.2 notDot
    obtain ⟨first, others, pieces⟩ :=
      List.exists_cons_of_ne_nil (Text.pieces_ne_nil (· == '.') rest)
    have whole : Text.pieces (· == '.') name.toList = (c :: first) :: others := by
      rw [chars]
      simp only [Text.pieces, apart, pieces]
      rfl
    have some_ : String.ofList (c :: first) ≠ "" := by
      intro empty
      have chars := congrArg String.toList empty
      rw [String.toList_ofList] at chars
      exact absurd chars (by simp)
    rw [whole, List.map_cons]
    unfold placeParts
    rw [if_neg some_]
    cases placeParts false (others.map String.ofList) <;> simp [fileBelow]

end ObjectName

namespace Document

theorem foreignName?_starts {tag : Xml.Tag} {name : String} (refers : foreignName? tag = some name)
    (plain : (ObjectName.split name).2 = none) :
    ∃ c rest, name.toList = c :: rest ∧ c ≠ '.' := by
  unfold foreignName? at refers
  split at refers
  · next tests =>
    obtain ⟨referred, some_⟩ := Option.filter_eq_some_iff.1 refers
    unfold referredName? at referred
    obtain ⟨base, isBase, same⟩ := Option.map_eq_some_iff.1 referred
    have notReflexive : isReflexive base = false := by
      simp [foreignTests, notReflexive, isBase] at tests
      exact tests.2.1
    have isName : base = name := by
      split at same
      · next version =>
        split at same
        · exact same
        · have member : ObjectName.versionMark ∈ name.toList := by
            rw [← same]
            simp [String.toList_append]
          exact absurd plain (ObjectName.split_of_mark member)
      · exact same
    rw [isName] at notReflexive
    cases chars : name.toList with
    | nil =>
      rw [String.toList_eq_nil_iff.1 chars] at some_
      exact absurd some_ (by decide)
    | cons c rest =>
      refine ⟨c, rest, rfl, fun dot => ?_⟩
      have starts : Text.startsWith "." name = true := by
        unfold Text.startsWith
        rw [chars, dot]
        simp
      unfold isReflexive at notReflexive
      rw [starts] at notReflexive
      exact absurd notReflexive (by simp)
  · exact absurd refers (by simp)

/-- A foreign name has a file of its own in every directory. -/
theorem segments_foreignNames {document : Document} {name extension : String}
    (member : name ∈ document.foreignNames) : ObjectName.segments extension name ≠ [] := by
  refine ObjectName.segments_ne_nil fun plain => ?_
  unfold foreignNames at member
  have starts : ∀ other ∈ document.allObjects.filterMap fun object => foreignName? object.1,
      (ObjectName.split other).2 = none → ∃ c rest, other.toList = c :: rest ∧ c ≠ '.' := by
    intro other among
    obtain ⟨object, _, refers⟩ := List.mem_filterMap.1 among
    exact foreignName?_starts refers
  rw [Ordered.mem_names] at member
  split at member
  · rcases List.mem_cons.1 member with tuple | referred
    · rw [tuple]
      exact ⟨'o', _, rfl, by decide⟩
    · exact starts name referred plain
  · exact starts name member plain

end Document

/-- Every entry of a disk has a name of its own in its directory. -/
def Disk.WellNamed (disk : Disk) : Prop :=
  ∀ item ∈ disk.entries, ∀ name ∈ item.1, Path.IsName name

instance (disk : Disk) : Decidable disk.WellNamed :=
  inferInstanceAs (Decidable (∀ item ∈ disk.entries, ∀ name ∈ item.1, Path.IsName name))

namespace Build

open ObjectName (Placeable)
open Path (IsName)

/-- What an object is called whose file has a strict name. -/
theorem placeable_of_ends {id : String} {front : List Char} {last : Char}
    (ends : id.toList = front ++ [last]) (strict : isStrict last = true)
    (noSlash : ∀ c ∈ id.toList, (c == '/') = false) : Placeable id := by
  have notDot : last ≠ '.' := by
    intro same
    rw [same] at strict
    exact absurd strict (by decide)
  constructor
  · intro tag member
    have split := ObjectName.split_version (Option.mem_toList.1 member)
    have tagSlash : ∀ c ∈ tag.toList, (c == '/') = false := fun c inside =>
      noSlash c (by rw [split]; simp [inside])
    rcases List.eq_nil_or_concat tag.toList with empty | ⟨before, final, chars⟩
    · rw [empty, ends] at split
      obtain ⟨_, same⟩ := List.append_inj' split rfl
      rw [(List.cons.inj same).1] at strict
      exact absurd strict (by decide)
    · rw [List.concat_eq_append] at chars
      rw [chars, ends, ← List.cons_append, ← List.append_assoc] at split
      obtain ⟨_, same⟩ := List.append_inj' split rfl
      refine ObjectName.isName_of_char (c := last) ?_ notDot tagSlash
      rw [chars, (List.cons.inj same).1]
      simp
  · refine ObjectName.splitAll_dotless fun c inside => noSlash c ?_
    cases version : (ObjectName.split id).2 with
    | none =>
      rw [ObjectName.split_plain version] at inside
      exact inside
    | some tag =>
      rw [ObjectName.split_version version]
      exact List.mem_append_left _ inside

theorem namesOf_named (names : List String) :
    ObjectName.namesOf (names.map Path.Component.named) = names := by
  induction names with
  | nil => rfl
  | cons name rest inductionHypothesis =>
    rw [List.map_cons, ObjectName.namesOf, inductionHypothesis]

theorem dropExtension_concat (extension : String) (front : List String) (last : String) :
    ObjectName.dropExtension extension (front ++ [last]) =
      front ++ [(Text.dropTail? ("." ++ extension) last).getD last] := by
  induction front with
  | nil => rfl
  | cons name rest inductionHypothesis =>
    cases rest with
    | nil => rfl
    | cons second more =>
      rw [List.cons_append, List.cons_append, ObjectName.dropExtension, ← List.cons_append,
        inductionHypothesis]
      · rfl
      · simp

/-- A path of names has a strict file name when its last name is strict. -/
theorem fileName?_of_names {front : List String} {last : String}
    (names : ∀ name ∈ front ++ [last], IsName name) :
    (⟨front ++ [last]⟩ : Path).fileName? = some last := by
  have plain : Path.Names last := (names last (by simp)).names
  have lead : Path.lead ⟨front ++ [last]⟩ = [] := by
    obtain ⟨first, rest, split⟩ := List.exists_cons_of_ne_nil
      (List.append_ne_nil_of_right_ne_nil front (List.cons_ne_nil last []))
    have firstName : Path.Names first := (names first (by rw [split]; exact List.mem_cons_self)).names
    unfold Path.lead
    simp only [split]
    rw [if_neg fun empty => firstName.ne_empty empty.1, if_neg firstName.ne_dot]
  unfold Path.fileName? Path.body
  rw [lead]
  simp only [List.length_nil, List.drop_zero, Path.trimSegments_name front plain,
    List.getLast?_concat]
  exact if_neg (Path.names_iff.1 plain).2

/-- The object of a file with a strict name is placeable. -/
theorem placeable_of_file {file : Path} (names : ∀ name ∈ file.segments, IsName name)
    (strict : checkName file = .ok ()) : file.segments ≠ [] ∧ Placeable (idOf file) := by
  obtain ⟨segments⟩ := file
  unfold checkName at strict
  simp only at strict names ⊢
  split at strict
  · next isStrictName =>
    rcases List.eq_nil_or_concat segments with empty | ⟨front, last, split⟩
    · rw [empty] at isStrictName
      exact absurd isStrictName (by decide)
    · rw [List.concat_eq_append] at split
      rw [split] at names isStrictName ⊢
      refine ⟨by simp, ?_⟩
      rw [fileName?_of_names names, Option.getD_some] at isStrictName
      let base := (Text.dropTail? ("." ++ sourceExtension) last).getD last
      obtain ⟨some_, all⟩ : base ≠ "" ∧ base.toList.all isStrict = true := by
        simpa [hasStrictName] using isStrictName
      have chars : (idOf ⟨front ++ [last]⟩).toList =
          Text.joined '.' (front.map String.toList ++ [base.toList]) := by
        unfold idOf ObjectName.ofRelativePath
        rw [Path.components_names fun name member => (names name member).names, namesOf_named,
          dropExtension_concat]
        unfold Text.joinAll
        rw [String.toList_ofList, List.map_append]
        rfl
      obtain ⟨before, final, baseChars⟩ : ∃ before final, base.toList = before ++ [final] := by
        rcases List.eq_nil_or_concat base.toList with empty | ⟨before, final, same⟩
        · exact absurd (String.toList_eq_nil_iff.1 empty) some_
        · exact ⟨before, final, by rw [same, List.concat_eq_append]⟩
      rw [List.all_eq_true] at all
      have ends : (idOf ⟨front ++ [last]⟩).toList =
          (Text.joined '.' (front.map String.toList ++ [[]]) ++ before) ++ [final] := by
        rw [chars, baseChars, List.append_assoc, Text.joined_append_last, List.nil_append]
      refine placeable_of_ends ends (all final (by rw [baseChars]; simp)) fun c inside => ?_
      rw [chars] at inside
      rcases Text.mem_joined inside with dot | ⟨part, among, within⟩
      · rw [dot]
        decide
      · rcases List.mem_append.1 among with inFront | isBase
        · obtain ⟨name, member, same⟩ := List.mem_map.1 inFront
          rw [← same] at within
          exact (names name (List.mem_append_left _ member)).noSlash c within
        · rw [List.mem_singleton.1 isBase] at within
          have strictChar := all c within
          rw [beq_eq_false_iff_ne]
          intro slash
          rw [slash] at strictChar
          exact absurd strictChar (by decide)
  · exact absurd strict (by simp)

/-- The files that a build registers are named as the entries of its disk. -/
theorem registeredFiles_names {settings : Settings} {disk : Disk} (named : disk.WellNamed)
    {file : Path} (member : file ∈ registeredFiles settings disk) :
    (∀ name ∈ file.segments, IsName name) ∧ disk.Passable settings.sources := by
  unfold registeredFiles at member
  split at member
  · obtain ⟨among, _⟩ := List.mem_filter.1 member
    unfold filesIn at among
    cases leads : disk.resolve? settings.sources with
    | none => simp [leads] at among
    | some location =>
      simp only [leads] at among
      obtain ⟨⟨names, content⟩, below, rfl⟩ := List.mem_map.1 among
      refine ⟨fun name inside => ?_, (Disk.passable_of_resolve? leads).2.1⟩
      unfold Disk.filesBelow at below
      rw [List.mem_mergeSort, List.mem_filterMap] at below
      obtain ⟨⟨place, entry⟩, entryMember, isFile⟩ := below
      have same : names = place.drop location.length := by
        cases entry with
        | directory => simp at isFile
        | file content =>
          simp only at isFile
          split at isFile
          · exact (Prod.mk.inj (Option.some.inj isFile)).1.symm
          · exact absurd isFile (by simp)
      simp only [same] at inside
      exact named _ entryMember name (List.mem_of_mem_drop inside)
  · exact absurd member (by simp)

end Build

end EoAssembly
