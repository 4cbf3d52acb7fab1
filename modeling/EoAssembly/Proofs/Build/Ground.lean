import EoAssembly.Proofs.Build.Separate
import EoAssembly.Proofs.Disk.Naming

/-!
Contract: what a build writes in its target, it writes beside the catalog files.

The places of any object whose name holds no slash lead into the target, even when
its version is made of dots and leads back out of the directory of a stage.  The
first name behind the target is then that of a stage, a part of the object's name or
the name of a file with an extension, and none of these is the name of a catalog file
or of its sibling.

Owns `ObjectName.Storable`, `Path.Inside`, and the places of stages as paths inside
the target.
-/

namespace EoAssembly

open Path (Component IsName)

/-- The names of the catalog files of a build and of their siblings. -/
def Build.catalogFiles : List String :=
  [Catalogs.foreignFile, Catalogs.foreignFile ++ ".tmp", Catalogs.externalFile,
    Catalogs.externalFile ++ ".tmp"]

namespace ObjectName

open Build (catalogFiles)

variable {extension name part : String}

/-- A name whose version and parts hold no slash. -/
structure Storable (name : String) : Prop where
  version : ∀ tag ∈ (split name).2.toList, ∀ c ∈ tag.toList, (c == '/') = false
  parts : ∀ part ∈ Text.splitAll '.' (split name).1, Dotless part

theorem Placeable.storable (placeable : Placeable name) : Storable name where
  version tag member := (placeable.version tag member).noSlash
  parts := placeable.parts

/-- A name without slashes is storable. -/
theorem storable_of_noSlash (plain : ∀ c ∈ name.toList, (c == '/') = false) : Storable name := by
  constructor
  · intro tag member c inside
    refine plain c ?_
    rw [split_version (Option.mem_toList.1 member)]
    simp [inside]
  · refine splitAll_dotless fun c inside => plain c ?_
    cases version : (split name).2 with
    | none =>
      rw [split_plain version] at inside
      exact inside
    | some tag =>
      rw [split_version version]
      exact List.mem_append_left _ inside

/-! ## Names that are no catalog file -/

/-- A catalog file is named with a dot behind other letters, and ends as no document and
no source does. -/
theorem catalogFiles_letters : ∀ file ∈ catalogFiles, file.toList.head? = some 'e' ∧
    '.' ∈ file.toList ∧ file.toList.getLast? ∈ [some 'n', some 'p'] := by decide

theorem not_catalogFile_of_dotless (dotless : Dotless part) : part ∉ catalogFiles := fun member =>
  (dotless '.' (catalogFiles_letters part member).2.1).1 rfl

theorem not_catalogFile_of_dot : "." ++ part ∉ catalogFiles := by
  intro member
  have first := (catalogFiles_letters _ member).1
  rw [String.toList_append] at first
  exact absurd first (by simp)

theorem not_catalogFile_of_last {last : Char} (ends : name.toList.getLast? = some last)
    (other : last ≠ 'n' ∧ last ≠ 'p') : name ∉ catalogFiles := by
  intro member
  have final := (catalogFiles_letters _ member).2.2
  rw [ends] at final
  simp only [List.mem_cons, Option.some.injEq, List.not_mem_nil, or_false] at final
  exact final.elim other.1 other.2

theorem placeParts_not_catalogFile {parts : List String} (dotless : ∀ part ∈ parts, Dotless part) :
    ∀ dotted, ∀ part ∈ placeParts dotted parts, part ∉ catalogFiles := by
  induction parts with
  | nil => simp [placeParts]
  | cons first rest inductionHypothesis =>
    intro dotted part member
    have later := inductionHypothesis fun other among =>
      dotless other (List.mem_cons_of_mem first among)
    unfold placeParts at member
    split at member
    · exact later true part member
    · rcases List.mem_cons.1 member with own | behind
      · rw [own]
        split
        · exact not_catalogFile_of_dot
        · exact not_catalogFile_of_dotless (dotless first List.mem_cons_self)
      · exact later false part behind

/-- An extension in which no catalog file ends. -/
def EndsApart (extension : String) : Prop :=
  ∃ last, extension.toList.getLast? = some last ∧ last ≠ 'n' ∧ last ≠ 'p'

theorem fileBelow_not_catalogFile (apart : EndsApart extension) {parts : List String}
    (others : ∀ part ∈ parts, part ∉ catalogFiles) :
    ∀ segment ∈ fileBelow extension parts, segment ∉ catalogFiles := by
  obtain ⟨final, ends, other⟩ := apart
  induction parts with
  | nil => simp [fileBelow]
  | cons first rest inductionHypothesis =>
    intro segment member
    cases rest with
    | nil =>
      rw [List.mem_singleton.1 member]
      refine not_catalogFile_of_last ?_ other
      have chars : (s!"{first}.{extension}").toList = first.toList ++ '.' :: extension.toList := by
        simp [toString]
      rw [chars, List.getLast?_append, List.getLast?_cons, ends]
      rfl
    | cons second more =>
      rcases List.mem_cons.1 member with own | behind
      · rw [own]
        exact others first List.mem_cons_self
      · exact inductionHypothesis (fun part among => others part (List.mem_cons_of_mem first among))
          segment behind

end ObjectName

/-! ## Paths inside a directory -/

/-- A path leads into a directory, beside the catalog files there. -/
structure Path.Inside (current : Location) (path target : Path) : Prop where
  goal : ∃ behind, path.goal current = target.goal current ++ behind ∧
    ∀ name ∈ behind.head?, name ∉ Build.catalogFiles
  left : ∀ passed ∈ path.left current,
    passed ∈ target.left current ∨ target.goal current <+: passed
  way : ∀ reached ∈ path.way current, reached ∈ target.way current ∨
    ∃ behind, reached = target.goal current ++ behind ∧
      ∀ name ∈ behind.head?, name ∉ Build.catalogFiles

namespace Path

variable {current : Location} {target path : Path} {file : String}

theorem Inside.not_catalog (inside : path.Inside current target)
    (member : file ∈ Build.catalogFiles) :
    path.goal current ≠ target.goal current ++ [file] := by
  obtain ⟨behind, same, first⟩ := inside.goal
  intro wrong
  rw [same, List.append_cancel_left_eq] at wrong
  rw [wrong] at first
  exact first file rfl member

theorem Inside.below (inside : path.Inside current target) :
    target.goal current <+: path.goal current := by
  obtain ⟨behind, same, _⟩ := inside.goal
  rw [same]
  exact List.prefix_append _ _

/-- Names behind a directory lead inside when the first of them is not the one of a catalog. -/
theorem inside_of_names {names : List String}
    (components : path.components = target.components ++ names.map Component.named)
    (plain : ∀ name ∈ names.head?, name ∉ Build.catalogFiles) : path.Inside current target where
  goal := ⟨names, goal_of_names current components, plain⟩
  left passed member := Or.inl (left_of_names current components ▸ member)
  way reached member := by
    rcases (mem_way_of_names current components).1 member with before | ⟨front, some_, starts, same⟩
    · exact Or.inl before
    · refine Or.inr ⟨front, same, fun name isFirst => plain name ?_⟩
      obtain ⟨rest, rfl⟩ := starts
      rw [List.head?_append_of_ne_nil _ some_]
      exact isFirst

/-- Names behind a directory and one segment, which may lead back from it, lead inside. -/
theorem inside_of_components {first turn : String} {names : List String}
    (components : path.components = target.components ++
      .named first :: ((componentOf turn).toList ++ names.map Component.named))
    (plain : first ∉ Build.catalogFiles) (others : ∀ name ∈ names, name ∉ Build.catalogFiles) :
    path.Inside current target := by
  rcases Build.componentOf_cases turn with none | up | named
  · have behind : path.components = target.components ++ (first :: names).map Component.named := by
      rw [components, none]
      rfl
    exact inside_of_names behind fun name isFirst => Option.some.inj isFirst ▸ plain
  · have goal : path.goal current = target.goal current ++ names := by
      unfold Path.goal
      rw [components, goalFrom_append]
      simp only [up, Option.toList, List.singleton_append, goalFrom, List.dropLast_concat,
        goalFrom_names]
    have left : path.left current = target.left current ++ [target.goal current ++ [first]] := by
      unfold Path.left Path.goal
      rw [components, leftFrom_append]
      simp only [up, Option.toList, List.singleton_append, leftFrom, List.dropLast_concat,
        leftFrom_names]
    have way : path.way current = target.way current ++
        (target.goal current ++ [first]) :: wayFrom (target.goal current)
          (names.map Component.named) := by
      unfold Path.way Path.goal
      rw [components, wayFrom_append]
      simp only [up, Option.toList, List.singleton_append, wayFrom, List.dropLast_concat]
    refine ⟨⟨names, goal, fun name isFirst => others name (List.mem_of_mem_head? isFirst)⟩,
      fun passed member => ?_, fun reached member => ?_⟩
    · rw [left] at member
      rcases List.mem_append.1 member with before | here
      · exact Or.inl before
      · rw [List.mem_singleton.1 here]
        exact Or.inr (List.prefix_append _ _)
    · rw [way] at member
      rcases List.mem_append.1 member with before | behind
      · exact Or.inl before
      · rcases List.mem_cons.1 behind with here | there
        · exact Or.inr ⟨[first], here, fun name isFirst => Option.some.inj isFirst ▸ plain⟩
        · obtain ⟨front, _, starts, same⟩ := mem_wayFrom_names.1 there
          exact Or.inr ⟨front, same, fun name isFirst =>
            others name (starts.subset (List.mem_of_mem_head? isFirst))⟩
  · have behind : path.components =
        target.components ++ (first :: turn :: names).map Component.named := by
      rw [components, named]
      rfl
    exact inside_of_names behind fun name isFirst => Option.some.inj isFirst ▸ plain

end Path

/-! ## Places of stages -/

namespace Build

open ObjectName (IsExtension Storable EndsApart fileBelow fileBelow_concat place placeParts)

variable {directory extension id file : String}

/-- The version of a name, where one that names nothing is left out. -/
def turnOf (id : String) : String := (ObjectName.split id).2.getD ""

/-- The directory of a version is one segment behind that of the stage. -/
theorem versionedIn_segments (plainDirectory : IsName directory) (storable : Storable id)
    (target : Path) : ObjectName.versionedIn id (target.child directory) =
      ⟨target.base ++ directory :: (ObjectName.split id).2.toList⟩ := by
  have versions := storable.version
  unfold ObjectName.versionedIn
  cases version : (ObjectName.split id).2 with
  | none => exact Path.child_name target plainDirectory
  | some tag =>
    rw [version] at versions
    have single : Path.ofText tag = ⟨[tag]⟩ := by
      unfold Path.ofText Text.splitAll
      rw [Text.pieces_of_none (versions tag (by simp))]
      simp
    have open_ : (target.base ++ [directory]).getLast? ≠ some "" := by
      rw [List.getLast?_concat]
      exact fun empty => plainDirectory.names.ne_empty (Option.some.inj empty)
    rw [Path.child_name target plainDirectory]
    simp only
    unfold Path.child Path.join
    rw [single, if_neg (by simp [Path.isAbsolute]), if_neg open_]
    simp

theorem components_versioned (plainDirectory : IsName directory) (storable : Storable id)
    (target : Path) : (ObjectName.versionedIn id (target.child directory)).components =
      target.components ++ .named directory :: (Path.componentOf (turnOf id)).toList := by
  rw [versionedIn_segments plainDirectory storable,
    Path.components_base_cons target plainDirectory.names]
  unfold turnOf
  cases (ObjectName.split id).2 with
  | none => rfl
  | some tag =>
    rw [Option.toList_some, List.filterMap_cons, Option.getD_some]
    cases Path.componentOf tag <;> rfl

/-- The place of a storable object is behind the directory of its stage, its version and its
parts. -/
theorem components_stage_storable (plainDirectory : IsName directory) (plain : IsExtension extension)
    (storable : Storable id) (target : Path) :
    (place id (target.child directory) extension).components = target.components ++
      .named directory :: ((Path.componentOf (turnOf id)).toList ++
        (fileBelow extension (placeParts false (Text.splitAll '.' (ObjectName.split id).1))).map
          Component.named) := by
  have names := ObjectName.placeParts_names storable.parts false
  rw [ObjectName.place_eq, (ObjectName.placeBelow_eq plain.noSlash names _).1,
    components_versioned plainDirectory storable, List.append_assoc]
  rfl

theorem inside_stage (plainDirectory : IsName directory) (noCatalog : directory ∉ catalogFiles)
    (plain : IsExtension extension) (apart : EndsApart extension) (storable : Storable id)
    (target : Path) (current : Location) :
    (place id (target.child directory) extension).Inside current target :=
  Path.inside_of_components (components_stage_storable plainDirectory plain storable target) noCatalog
    (ObjectName.fileBelow_not_catalogFile apart
      (ObjectName.placeParts_not_catalogFile storable.parts false))

theorem inside_parsedPlace (storable : Storable id) (target : Path) (current : Location) :
    (parsedPlace target id).Inside current target :=
  inside_stage isName_parsed (by decide) isExtension_document ⟨'r', by decide⟩ storable target current

theorem inside_optimizedPlace (storable : Storable id) (target : Path) (current : Location) :
    (optimizedPlace target id).Inside current target :=
  inside_stage isName_optimized (by decide) isExtension_document ⟨'r', by decide⟩ storable target
    current

theorem inside_pulledPlace (storable : Storable id) (target : Path) (current : Location) :
    (pulledPlace target id).Inside current target :=
  inside_stage isName_pulled (by decide) isExtension_source ⟨'o', by decide⟩ storable target current

/-! ## Results of single passes -/

theorem stem_extended {part : String} (some_ : part ≠ "") (plain : IsExtension extension) :
    Path.stem s!"{part}.{extension}" = part := by
  have chars : (s!"{part}.{extension}").toList.reverse =
      extension.toList.reverse ++ '.' :: part.toList.reverse := by
    simp [toString]
  have cut : Text.cut (· == '.') (s!"{part}.{extension}").toList.reverse =
      some (extension.toList.reverse, part.toList.reverse) := by
    rw [chars]
    have noDot : ∀ c ∈ extension.toList.reverse, (c == '.') = false := fun c member =>
      beq_eq_false_iff_ne.2 (plain.dotless c (List.mem_reverse.1 member)).1
    generalize extension.toList.reverse = front at noDot
    induction front with
    | nil => simp [Text.cut]
    | cons c rest inductionHypothesis =>
      have later := inductionHypothesis fun d member => noDot d (List.mem_cons_of_mem c member)
      have here := noDot c List.mem_cons_self
      simp [Text.cut, here, later]
  unfold Path.stem
  rw [cut]
  have notEmpty : part.toList.reverse.isEmpty = false := by
    rw [List.isEmpty_reverse, List.isEmpty_eq_false_iff]
    exact fun empty => some_ (String.toList_eq_nil_iff.1 empty)
  simp [notEmpty]

/-- Parts below any directory are segments behind its base. -/
theorem placeBelow_base (plain : IsExtension extension) {parts : List String} (some_ : parts ≠ [])
    (names : ∀ part ∈ parts, IsName part) (directory : Path) :
    ObjectName.placeBelow directory extension parts =
      ⟨directory.base ++ fileBelow extension parts⟩ := by
  obtain ⟨first, rest, split⟩ := List.exists_cons_of_ne_nil some_
  rw [split] at names ⊢
  have here := names first List.mem_cons_self
  cases rest with
  | nil => exact Path.child_name directory (ObjectName.isName_extended here plain.noSlash)
  | cons second more =>
    rw [ObjectName.placeBelow, ObjectName.placeBelow_segments plain.noSlash
      (fun part among => names part (List.mem_cons_of_mem first among))
      (Path.endsInName_child directory here), Path.child_name directory here, List.append_assoc]
    · rfl
    · simp

theorem child_file {segments : List String} (open_ : segments.getLast? ≠ some "")
    (plain : IsName file) : (⟨segments⟩ : Path).child file = ⟨segments ++ [file]⟩ := by
  rw [Path.child_name _ plain]
  unfold Path.base
  rw [if_neg open_]

/-- Silent segments behind the directory of the stage lead nowhere. -/
theorem components_stage_file (target : Path) {tail : List String}
    (quiet : ∀ segment ∈ tail, Path.silent segment = true) (plain : IsName file) :
    ((⟨target.base ++ stepsDirectory :: tail⟩ : Path).withoutExtension.child file).components =
      target.components ++ [.named stepsDirectory, .named file] := by
  have sameStage : Path.stem stepsDirectory = stepsDirectory := by decide
  have fileName : Path.componentOf file = some (.named file) := plain.names
  have open_ : (target.base ++ [stepsDirectory]).getLast? ≠ some "" := by
    rw [List.getLast?_concat]
    decide
  rw [Path.withoutExtension_quiet isName_steps.names quiet, sameStage, child_file open_ plain,
    List.append_assoc, List.singleton_append, Path.components_base_cons target isName_steps.names,
    List.filterMap_cons, fileName]
  rfl

theorem components_segment_file (target : Path) {segment : String} (some_ : segment ≠ "")
    (plain : IsName file) :
    ((⟨target.base ++ [stepsDirectory, segment]⟩ : Path).child file).components =
      target.components ++
        .named stepsDirectory :: ((Path.componentOf segment).toList ++ [.named file]) := by
  have fileName : Path.componentOf file = some (.named file) := plain.names
  have open_ : (target.base ++ [stepsDirectory, segment]).getLast? ≠ some "" := by
    simpa using some_
  rw [child_file open_ plain, List.append_assoc, List.cons_append,
    Path.components_base_cons target isName_steps.names, List.singleton_append,
    List.filterMap_cons, List.filterMap_cons, fileName]
  cases Path.componentOf segment <;> rfl

/-- Without parts, the results of passes are behind the directory of the stage, or that of the
version without its extension. -/
theorem components_step_bare (storable : Storable id) (target : Path)
    (bare : placeParts false (Text.splitAll '.' (ObjectName.split id).1) = []) :
    ∃ turn, ∀ {file}, IsName file → ((stepsPlace target id).child file).components =
      target.components ++
        .named stepsDirectory :: ((Path.componentOf turn).toList ++ [.named file]) := by
  unfold stepsPlace
  rw [ObjectName.place_eq, bare, ObjectName.placeBelow,
    versionedIn_segments isName_steps storable]
  cases version : (ObjectName.split id).2 with
  | none => exact ⟨"", components_stage_file target (by simp)⟩
  | some tag =>
    rw [Option.toList_some]
    by_cases quiet : Path.silent tag = true
    · exact ⟨"", components_stage_file target (by simpa using quiet)⟩
    · have open_ : tag ≠ "" := by
        intro empty
        rw [empty] at quiet
        exact quiet (by decide)
      have regroup : target.base ++ [stepsDirectory, tag] =
          (target.base ++ [stepsDirectory]) ++ [tag] := by simp
      by_cases up : tag = ".."
      · refine ⟨"..", ?_⟩
        rw [up] at regroup ⊢
        rw [regroup, Path.withoutExtension_up, ← regroup]
        exact components_segment_file target (by decide)
      · have names : Path.Names tag := Path.names_iff.2 ⟨by simpa using quiet, up⟩
        refine ⟨Path.stem tag, ?_⟩
        rw [regroup, Path.withoutExtension_of_name names, List.append_assoc, List.singleton_append]
        exact components_segment_file target (Path.stem_ne_empty open_)

/-- The results of passes are behind their directory, the version of the object or what is left
of it, and the parts of the object. -/
theorem components_step_storable (storable : Storable id) (target : Path) :
    ∃ turn, ∀ {file}, IsName file → ((stepsPlace target id).child file).components =
      target.components ++ .named stepsDirectory :: ((Path.componentOf turn).toList ++
        (placeParts false (Text.splitAll '.' (ObjectName.split id).1) ++ [file]).map
          Component.named) := by
  rcases List.eq_nil_or_concat (placeParts false (Text.splitAll '.' (ObjectName.split id).1)) with
    bare | ⟨front, last, split⟩
  · obtain ⟨turn, components⟩ := components_step_bare storable target bare
    rw [bare]
    exact ⟨turn, components⟩
  · rw [List.concat_eq_append] at split
    have names := ObjectName.placeParts_names storable.parts false
    rw [split] at names ⊢
    have lastName := (names last (by simp)).names
    have extended := ObjectName.isName_extended (names last (by simp)) isExtension_document.noSlash
    have some_ : front ++ [last] ≠ [] := by simp
    refine ⟨turnOf id, fun plain => ?_⟩
    unfold stepsPlace
    rw [ObjectName.place_eq, split, placeBelow_base isExtension_document some_ names,
      fileBelow_concat, ← List.append_assoc, Path.withoutExtension_of_name extended.names,
      stem_extended lastName.ne_empty isExtension_document, child_file (by simpa using lastName.ne_empty) plain,
      List.append_assoc, List.append_assoc, ← List.append_assoc front,
      Path.components_base_append _ (by simp) (fun name member => ?_),
      components_versioned isName_steps storable, List.append_assoc]
    · rfl
    · rcases List.mem_append.1 member with part | isFile
      · exact (names name part).names
      · rw [List.mem_singleton.1 isFile]
        exact plain.names

/-- The results of passes lead into the target, beside the catalog files. -/
theorem inside_step (storable : Storable id) (plain : IsName file) (noCatalog : file ∉ catalogFiles)
    (target : Path) (current : Location) :
    ((stepsPlace target id).child file).Inside current target := by
  obtain ⟨turn, components⟩ := components_step_storable storable target
  refine Path.inside_of_components (components plain) (by decide) fun name member => ?_
  rcases List.mem_append.1 member with part | isFile
  · exact ObjectName.placeParts_not_catalogFile storable.parts false name part
  · rw [List.mem_singleton.1 isFile]
    exact noCatalog

theorem endsInName_step (plain : IsName file) (target : Path) :
    ((stepsPlace target id).child file).EndsInName :=
  Path.endsInName_child _ plain

/-- The results of all passes have names of their own. -/
theorem stepFiles_plain : ∀ item ∈ Pass.all.zipIdx,
    IsName (Pass.stepFile item.2 item.1) ∧ Pass.stepFile item.2 item.1 ∉ catalogFiles := by
  decide +kernel

end Build

end EoAssembly
