import EoAssembly.Proofs.Build.Enlisting
import EoAssembly.Proofs.Build.Listing
import EoAssembly.Proofs.Build.Names

/-!
Contract: which files registering selects, and which of them each object keeps.

The regular files below the sources that one pattern includes and none excludes are
registered, all of them.  An object keeps the last file of its name in the order of the walk.
Two files have one name where a dot inside the name of a directory or of a file reads as the
end of a directory; files that end in the extension, in directories without dots, have names of
their own.

Owns `Selects`, `LastOfName` and `Registration`, and the law that no file is lost exactly where
no two of them have one name.
-/

namespace EoAssembly

namespace Build

open Path (IsName)

variable {settings : Settings} {before between after : Workspace} {disk : Disk}
  {file other : Path} {files : List Path} {id : String} {count : Nat}

/-! ## Files that patterns select -/

/-- One of some patterns stands for a text. -/
def SomeAccepts (patterns : List String) (text : String) : Prop :=
  ∃ pattern ∈ patterns, ∃ glob, Glob.ofText? pattern = some glob ∧ glob.accepts text = true

/-- A regular file stands below the sources, and the patterns of the project select it. -/
structure Selects (settings : Settings) (disk : Disk) (file : Path) : Prop where
  stands : ∃ content, disk.entryAt? (settings.sources.goal disk.current ++ file.segments) =
    some (.file content)
  included : SomeAccepts settings.included file.text
  notExcluded : ¬SomeAccepts settings.excluded file.text

/-- A file of the sources is the last one of its name, in the order of the names on the way. -/
structure LastOfName (settings : Settings) (disk : Disk) (file : Path) : Prop where
  selects : Selects settings disk file
  last : ∀ other, Selects settings disk other → idOf other = idOf file →
    List.le other.segments file.segments

theorem someAccepts_iff {patterns : List String} {globs : List Glob}
    (read : Settings.patterns patterns = .ok globs) (text : String) :
    globs.any (fun glob => glob.accepts text) = true ↔ SomeAccepts patterns text := by
  induction patterns generalizing globs with
  | nil =>
    rw [← Except.ok.inj read]
    exact iff_of_false (by simp) fun ⟨_, member, _⟩ => absurd member (by simp)
  | cons pattern rest inductionHypothesis =>
    unfold Settings.patterns at read
    split at read
    · exact absurd read (by simp)
    · next glob isGlob =>
      split at read
      · next others readRest =>
        rw [← Except.ok.inj read, List.any_cons, Bool.or_eq_true, inductionHypothesis readRest]
        unfold SomeAccepts
        simp [isGlob]
      · exact absurd read (by simp)

theorem isSelected_iff {included excluded : List Glob}
    (isIncluded : Settings.patterns settings.included = .ok included)
    (isExcluded : Settings.patterns settings.excluded = .ok excluded) (text : String) :
    isSelected included excluded text = true ↔
      SomeAccepts settings.included text ∧ ¬SomeAccepts settings.excluded text := by
  unfold isSelected
  rw [Bool.and_eq_true, Bool.not_eq_true', ← Bool.not_eq_true, someAccepts_iff isIncluded,
    someAccepts_iff isExcluded]

/-- The files that are registered are those that the patterns select. -/
theorem mem_registeredFiles (tidy : before.disk.Tidy)
    (ran : (register settings).Yields before count after) :
    file ∈ registeredFiles settings before.disk ↔ Selects settings before.disk file := by
  obtain ⟨isDirectory, ⟨included, isIncluded⟩, ⟨excluded, isExcluded⟩, _⟩ := yields_register.1 ran
  unfold registeredFiles selectedFiles
  rw [isIncluded, isExcluded]
  simp only
  rw [List.mem_filter, mem_filesIn tidy isDirectory, isSelected_iff isIncluded isExcluded]
  exact ⟨fun ⟨stands, chosen, kept⟩ => ⟨stands, chosen, kept⟩,
    fun ⟨stands, chosen, kept⟩ => ⟨stands, chosen, kept⟩⟩

/-- The walk comes to each file once, in the order of the names on the way. -/
theorem filesIn_sorted (tidy : disk.Tidy) {directory : Path}
    (isDirectory : disk.isDirectory directory = true) :
    (filesIn disk directory).Pairwise fun first second =>
      List.le first.segments second.segments ∧ first ≠ second := by
  rw [filesIn_eq isDirectory, List.pairwise_map]
  refine ((Disk.sorted_inOrder _).and (tidy.nodup_filesBelow _)).imp_of_mem fun {first second} here there related => ?_
  refine ⟨Disk.inOrder_iff.1 related.1, fun same => related.2 ?_⟩
  have key : first.1 = second.1 := congrArg Path.segments same
  have standsFirst := (tidy.mem_filesBelow.1 here).2
  have standsSecond := (tidy.mem_filesBelow.1 there).2
  rw [key, standsSecond] at standsFirst
  exact Prod.ext key (Entry.file.inj (Option.some.inj standsFirst)).symm

theorem registeredFiles_sorted (tidy : before.disk.Tidy)
    (ran : (register settings).Yields before count after) :
    (registeredFiles settings before.disk).Pairwise fun first second =>
      List.le first.segments second.segments ∧ first ≠ second := by
  obtain ⟨isDirectory, ⟨included, isIncluded⟩, ⟨excluded, isExcluded⟩, _⟩ := yields_register.1 ran
  unfold registeredFiles selectedFiles
  rw [isIncluded, isExcluded]
  exact (filesIn_sorted tidy isDirectory).sublist List.filter_sublist

/-! ## The last file of a name -/

/-- In an ordered list, the last file of a name is behind all others of that name. -/
theorem lastNamed_iff (sorted : files.Pairwise fun first second =>
      List.le first.segments second.segments ∧ first ≠ second) :
    lastNamed files id = some file ↔ file ∈ files ∧ idOf file = id ∧
      ∀ other ∈ files, idOf other = id → List.le other.segments file.segments := by
  have behind : ∀ {last}, lastNamed files id = some last →
      ∀ other ∈ files, idOf other = id → List.le other.segments last.segments := by
    intro last found other member same
    obtain ⟨front, split⟩ := List.getLast?_eq_some_iff.1 found
    have among : other ∈ front ++ [last] := by
      rw [← split]
      exact List.mem_filter.2 ⟨member, beq_iff_eq.2 same⟩
    have ordered := (split ▸ sorted.sublist List.filter_sublist :
      (front ++ [last]).Pairwise fun first second =>
        List.le first.segments second.segments ∧ first ≠ second)
    rcases List.mem_append.1 among with inFront | isLast
    · exact ((List.pairwise_append.1 ordered).2.2 other inFront last (by simp)).1
    · rw [List.mem_singleton.1 isLast]
      exact List.le_refl _
  constructor
  · intro found
    obtain ⟨member, same⟩ := lastNamed_mem found
    exact ⟨member, same, behind found⟩
  · rintro ⟨member, same, isLast⟩
    obtain ⟨last, found⟩ := lastNamed_of_mem member
    rw [same] at found
    obtain ⟨lastMember, sameLast⟩ := lastNamed_mem found
    have key : last.segments = file.segments :=
      List.le_antisymm (isLast last lastMember sameLast) (behind found file member same)
    rw [found]
    exact congrArg some (congrArg Path.mk key)

/-! ## Strict names -/

/-- The name of a file without the extension, if it has that, is of strict characters. -/
def StrictStem (file : Path) : Prop :=
  ∃ directories name stem, file.segments = directories ++ [name] ∧
    (name = stem ++ ".eo" ∨ name = stem ∧ ∀ front, name ≠ front ++ ".eo") ∧ stem ≠ "" ∧
    ∀ c ∈ stem.toList, ('a' ≤ c ∧ c ≤ 'z') ∨ ('0' ≤ c ∧ c ≤ '9') ∨ c = '-'

theorem isStrict_iff {c : Char} :
    isStrict c = true ↔ ('a' ≤ c ∧ c ≤ 'z') ∨ ('0' ≤ c ∧ c ≤ '9') ∨ c = '-' := by
  simp [isStrict, or_assoc]

theorem strictStem_of_check (names : ∀ name ∈ file.segments, IsName name)
    (passes : checkName file = .ok ()) : StrictStem file := by
  obtain ⟨segments⟩ := file
  unfold checkName at passes
  simp only at passes names
  split at passes
  · next isStrictName =>
    rcases List.eq_nil_or_concat segments with empty | ⟨front, last, split⟩
    · rw [empty] at isStrictName
      exact absurd isStrictName (by decide)
    · rw [List.concat_eq_append] at split
      rw [split] at names isStrictName
      rw [fileName?_of_names names, Option.getD_some] at isStrictName
      have extension : "." ++ sourceExtension = ".eo" := by decide
      unfold hasStrictName at isStrictName
      simp only [extension, Bool.and_eq_true, bne_iff_ne, List.all_eq_true, isStrict_iff]
        at isStrictName
      refine ⟨front, last, _, split, ?_, isStrictName⟩
      cases dropped : Text.dropTail? ".eo" last with
      | some stem => exact Or.inl (Text.dropTail?_eq_some.1 dropped)
      | none =>
        refine Or.inr ⟨rfl, fun ahead same => ?_⟩
        rw [Text.dropTail?_eq_some.2 same] at dropped
        exact absurd dropped (by simp)
  · exact absurd passes (by simp)

/-! ## Names that tell files apart -/

/-- A file with the extension, in directories without dots in their names. -/
def Plain (file : Path) : Prop :=
  ∃ directories stem, file.segments = directories ++ [stem ++ ".eo"] ∧
    ∀ name ∈ directories, '.' ∉ name.toList

theorem toList_idOf {directories : List String} {stem : String}
    (names : ∀ name ∈ file.segments, IsName name)
    (split : file.segments = directories ++ [stem ++ ".eo"]) :
    (idOf file).toList = Text.joined '.' ((directories ++ [stem]).map String.toList) := by
  obtain ⟨segments⟩ := file
  simp only at names split
  have dropped : Text.dropTail? ("." ++ sourceExtension) (stem ++ ".eo") = some stem :=
    Text.dropTail?_eq_some.2 rfl
  unfold idOf ObjectName.ofRelativePath
  rw [Path.components_names fun name member => (names name member).names, namesOf_named, split,
    dropExtension_concat, dropped]
  unfold Text.joinAll
  rw [String.toList_ofList]
  rfl

/-- The parts of the name of a plain file are its directories and its stem. -/
theorem pieces_idOf (names : ∀ name ∈ file.segments, IsName name) (strict : StrictStem file)
    (plain : Plain file) : ∃ directories stem, file.segments = directories ++ [stem ++ ".eo"] ∧
      Text.pieces (· == '.') (idOf file).toList = (directories ++ [stem]).map String.toList := by
  obtain ⟨directories, stem, split, dotless⟩ := plain
  refine ⟨directories, stem, split, ?_⟩
  have stemDotless : ∀ c ∈ stem.toList, (c == '.') = false := by
    obtain ⟨_, name, other, splitOther, isStem, _, letters⟩ := strict
    have isName : name = stem ++ ".eo" :=
      (List.cons.inj (List.append_inj' (splitOther.symm.trans split) rfl).2).1
    have same : other = stem := by
      rcases isStem with extended | ⟨_, bare⟩
      · exact (String.append_left_inj ".eo").1 (extended.symm.trans isName)
      · exact absurd isName (bare stem)
    intro c member
    rw [beq_eq_false_iff_ne]
    intro dot
    rw [dot, ← same] at member
    exact absurd (letters '.' member) (by decide)
  rw [toList_idOf names split]
  refine Text.pieces_joined (by simp) fun part member c inside => ?_
  obtain ⟨name, among, rfl⟩ := List.mem_map.1 member
  rcases List.mem_append.1 among with inFront | isStem
  · rw [beq_eq_false_iff_ne]
    intro dot
    exact dotless name inFront (dot ▸ inside)
  · rw [List.mem_singleton.1 isStem] at inside
    exact stemDotless c inside

/-- Plain files with strict stems have names of their own. -/
theorem idOf_inj (names : ∀ name ∈ file.segments, IsName name)
    (namesOther : ∀ name ∈ other.segments, IsName name) (strict : StrictStem file)
    (strictOther : StrictStem other) (plain : Plain file) (plainOther : Plain other)
    (same : idOf file = idOf other) : file = other := by
  obtain ⟨directories, stem, split, pieces⟩ := pieces_idOf names strict plain
  obtain ⟨others, last, splitOther, piecesOther⟩ := pieces_idOf namesOther strictOther plainOther
  have parts : directories ++ [stem] = others ++ [last] := by
    refine (List.map_injective_iff.2 fun _ _ => String.toList_injective) ?_
    rw [← pieces, same, piecesOther]
  obtain ⟨sameFront, sameLast⟩ := List.append_inj' parts rfl
  have segments : file.segments = other.segments := by
    rw [split, splitOther, sameFront, (List.cons.inj sameLast).1]
  exact congrArg Path.mk segments

/-! ## What registering leaves -/

/-- An object of a catalog has a file of the sources as its source. -/
def Keeps (settings : Settings) (catalog : Catalog) (file : Path) : Prop :=
  ∃ record, catalog.find? (idOf file) = some record ∧
    record.source = some (settings.sources.join file)

/-- What registering makes of a workspace. -/
structure Registration (settings : Settings) (before : Workspace) (count : Nat)
    (after : Workspace) : Prop where
  /-- The answer is the number of the selected files. -/
  counted : ∃ files : List Path, files.Nodup ∧
    (∀ file, file ∈ files ↔ Selects settings before.disk file) ∧ count = files.length
  /-- Every selected file has a strict name. -/
  strict : ∀ file, Selects settings before.disk file → StrictStem file
  /-- An object has the last file of its name, and the status it had or a first one. -/
  foreign : ∀ file, LastOfName settings before.disk file →
    after.foreign.find? (idOf file) = some { recordOf before.foreign (idOf file) with
      source := some (settings.sources.join file)
      status := some ((recordOf before.foreign (idOf file)).status.getD "registered") }
  /-- With versions, it is exported with that file and the version of the project. -/
  exported : settings.withVersions = true → ∀ file, LastOfName settings before.disk file →
    after.external.find? (idOf file) = some { recordOf before.external (idOf file) with
      source := some (settings.sources.join file)
      status := some "exported"
      version := if settings.project.version = "" then (recordOf before.external (idOf file)).version
        else some settings.project.version }
  unexported : settings.withVersions = false → after.external = before.external
  /-- The records of all other objects stay, and so does the rest of the workspace. -/
  others : ∀ id, (∀ file, Selects settings before.disk file → idOf file ≠ id) →
    after.foreign.find? id = before.foreign.find? id ∧
      after.external.find? id = before.external.find? id
  frame : ∃ disk foreign external,
    after = { before with disk := disk, foreign := foreign, external := external }

theorem lastOfName_iff (tidy : before.disk.Tidy)
    (ran : (register settings).Yields before count after) :
    lastNamed (registeredFiles settings before.disk) id = some file ↔
      LastOfName settings before.disk file ∧ idOf file = id := by
  have selects : ∀ {file}, file ∈ registeredFiles settings before.disk ↔
      Selects settings before.disk file := mem_registeredFiles tidy ran
  rw [lastNamed_iff (registeredFiles_sorted tidy ran), selects]
  constructor
  · rintro ⟨isSelected, same, last⟩
    exact ⟨⟨isSelected, fun other among sameId => last other (selects.2 among) (sameId.trans same)⟩,
      same⟩
  · rintro ⟨⟨isSelected, last⟩, same⟩
    exact ⟨isSelected, same, fun other among sameId =>
      last other (selects.1 among) (sameId.trans same.symm)⟩

/-- Every selected file has one of its name that is the last. -/
theorem Selects.exists_last (tidy : before.disk.Tidy)
    (ran : (register settings).Yields before count after)
    (selects : Selects settings before.disk file) :
    ∃ last, LastOfName settings before.disk last ∧ idOf last = idOf file := by
  obtain ⟨last, found⟩ := lastNamed_of_mem ((mem_registeredFiles tidy ran).2 selects)
  exact ⟨last, (lastOfName_iff tidy ran).1 found⟩

theorem registration (tidy : before.disk.Tidy) (named : before.disk.WellNamed)
    (strict : settings.strictNames = true)
    (ran : (register settings).Yields before count after) :
    Registration settings before count after := by
  obtain ⟨_, _, _, counted, ranFiles⟩ := yields_register.1 ran
  have enlisted := registerFiles_enlists ranFiles
  have selects : ∀ {file}, file ∈ registeredFiles settings before.disk ↔
      Selects settings before.disk file := mem_registeredFiles tidy ran
  have last : ∀ {file}, LastOfName settings before.disk file →
      lastNamed (registeredFiles settings before.disk) (idOf file) = some file :=
    fun isLast => (lastOfName_iff tidy ran).2 ⟨isLast, rfl⟩
  have none : ∀ {id}, (∀ file, Selects settings before.disk file → idOf file ≠ id) →
      lastNamed (registeredFiles settings before.disk) id = none := by
    intro id apart
    refine Option.eq_none_iff_forall_ne_some.2 fun file found => ?_
    obtain ⟨isLast, same⟩ := (lastOfName_iff tidy ran).1 found
    exact apart file isLast.selects same
  refine ⟨⟨_, (registeredFiles_sorted tidy ran).imp And.right, fun _ => selects, counted⟩,
    fun file isSelected => ?_, fun file isLast => ?_, fun versions file isLast => ?_,
    fun noVersions => ?_, fun id apart => ⟨?_, ?_⟩, enlisted.frame⟩
  · have member := selects.2 isSelected
    exact strictStem_of_check (registeredFiles_names named member).1
      (registerFiles_check strict ranFiles file member)
  · rw [enlisted.foreign, last isLast]
    rfl
  · have external := enlisted.external
    rw [if_pos versions] at external
    rw [external, last isLast]
    rfl
  · have external := enlisted.external
    rw [if_neg (by rw [noVersions]; decide)] at external
    exact external
  · rw [enlisted.foreign, none apart]
    rfl
  · have external := enlisted.external
    split at external
    · rw [external, none apart]
      rfl
    · rw [external]

/-- Files with one source are one file. -/
theorem join_inj (names : ∀ name ∈ file.segments, IsName name)
    (namesOther : ∀ name ∈ other.segments, IsName name)
    (same : settings.sources.join file = settings.sources.join other) : file = other := by
  obtain ⟨segments⟩ := file
  obtain ⟨segmentsOther⟩ := other
  rw [Path.join_names _ fun name member => (names name member).names,
    Path.join_names _ fun name member => (namesOther name member).names] at same
  exact congrArg Path.mk (List.append_cancel_left (congrArg Path.segments same))

/-- An object keeps a file exactly when that is the last of its name. -/
theorem Registration.keeps_iff (tidy : before.disk.Tidy) (named : before.disk.WellNamed)
    (ran : (register settings).Yields before count after)
    (registration : Registration settings before count after)
    (selects : Selects settings before.disk file) :
    (Keeps settings after.foreign file ↔ LastOfName settings before.disk file) ∧
      (settings.withVersions = true →
        (Keeps settings after.external file ↔ LastOfName settings before.disk file)) := by
  have names : ∀ {file}, Selects settings before.disk file → ∀ name ∈ file.segments, IsName name :=
    fun isSelected => (registeredFiles_names named ((mem_registeredFiles tidy ran).2 isSelected)).1
  obtain ⟨last, isLast, same⟩ := selects.exists_last tidy ran
  have kept : ∀ {catalog : Catalog} {record : Record}, catalog.find? (idOf last) = some record →
      record.source = some (settings.sources.join last) →
      (Keeps settings catalog file ↔ LastOfName settings before.disk file) := by
    intro catalog record found isSource
    constructor
    · rintro ⟨other, foundOther, sameSource⟩
      rw [← same, found] at foundOther
      rw [← Option.some.inj foundOther, isSource] at sameSource
      rw [← join_inj (names isLast.selects) (names selects) (Option.some.inj sameSource)]
      exact isLast
    · intro alsoLast
      have isFile : last = file := congrArg Path.mk
        (List.le_antisymm (alsoLast.last last isLast.selects same)
          (isLast.last file selects same.symm))
      rw [← isFile]
      exact ⟨record, found, isSource⟩
  exact ⟨kept (registration.foreign last isLast) rfl,
    fun versions => kept (registration.exported versions last isLast) rfl⟩

/-- Where names are strict, registering records every selected file, and an object keeps the last
file of its name.  No file is lost exactly where no two of them have one name, as is the case
among files with the extension in directories without dots. -/
theorem register_keeps_iff (tidy : before.disk.Tidy) (named : before.disk.WellNamed)
    (strict : settings.strictNames = true)
    (ran : (register settings).Yields before count after) :
    Registration settings before count after ∧
      (∀ file, Selects settings before.disk file →
        (Keeps settings after.foreign file ↔ LastOfName settings before.disk file) ∧
        (settings.withVersions = true →
          (Keeps settings after.external file ↔ LastOfName settings before.disk file))) ∧
      ((∀ file, Selects settings before.disk file → Keeps settings after.foreign file) ↔
        ∀ one other, Selects settings before.disk one → Selects settings before.disk other →
          idOf one = idOf other → one = other) ∧
      ∀ one other, Selects settings before.disk one → Selects settings before.disk other →
        Plain one → Plain other → idOf one = idOf other → one = other := by
  have registers := registration tidy named strict ran
  have keeps : ∀ {file}, Selects settings before.disk file →
      (Keeps settings after.foreign file ↔ LastOfName settings before.disk file) :=
    fun selects => (registers.keeps_iff tidy named ran selects).1
  have names : ∀ {file}, Selects settings before.disk file → ∀ name ∈ file.segments, IsName name :=
    fun isSelected => (registeredFiles_names named ((mem_registeredFiles tidy ran).2 isSelected)).1
  refine ⟨registers, fun _ => registers.keeps_iff tidy named ran,
    ⟨fun all one other isOne isOther same => ?_, fun apart file selects => ?_⟩,
    fun one other isOne isOther => ?_⟩
  · have lastOne := (keeps isOne).1 (all one isOne)
    have lastOther := (keeps isOther).1 (all other isOther)
    exact congrArg Path.mk
      (List.le_antisymm (lastOther.last one isOne same) (lastOne.last other isOther same.symm))
  · refine (keeps selects).2 ⟨selects, fun other isOther same => ?_⟩
    rw [apart other file isOther selects same]
    exact List.le_refl _
  · exact idOf_inj (names isOne) (names isOther) (registers.strict one isOne)
      (registers.strict other isOther)

/-! ## Two files of one name -/

/-- The files `a/b/c.eo` and `a.b/c.eo`, which have one name. -/
def sharedFiles : List Path := [.ofText "a/b/c.eo", .ofText "a.b/c.eo"]

/-- The sample project with these sources, opened for the first time. -/
def sharedStart : Workspace where
  disk := ⟨[(["w"], .directory), (["w", "s"], .directory), (["w", "s", "a"], .directory),
    (["w", "s", "a", "b"], .directory), (["w", "s", "a", "b", "c.eo"], .file (.text "first")),
    (["w", "s", "a.b"], .directory), (["w", "s", "a.b", "c.eo"], .file (.text "second"))], ["w"], []⟩
  foreign := ⟨catalogPath sampleSettings.target, []⟩
  external := ⟨sampleSettings.target.child Catalogs.externalFile, []⟩
  slot := .empty
  journal := []
  instant := ""

/-- What registering the files comes to. -/
def sharedRun : Except Failure Unit × Workspace :=
  (registerFiles sampleSettings sharedFiles).perform sharedStart

theorem shared_facts :
    (sharedStart.disk.unsorted ["w", "s"] =
        [(["a", "b", "c.eo"], .text "first"), (["a.b", "c.eo"], .text "second")] ∧
      sharedStart.disk.WellNamed) ∧
    sharedRun.1 = .ok () ∧
      sharedRun.2.foreign.records.map (fun record => record.source) =
        [some (.ofText "s/a.b/c.eo")] := by
  decide +kernel

theorem registeredFiles_shared : registeredFiles sampleSettings sharedStart.disk = sharedFiles := by
  obtain ⟨⟨unsorted, _⟩, _⟩ := shared_facts
  have below : sharedStart.disk.filesBelow ["w", "s"] =
      [(["a", "b", "c.eo"], .text "first"), (["a.b", "c.eo"], .text "second")] := by
    rw [Disk.filesBelow_eq, unsorted]
    exact List.mergeSort_of_pairwise (by decide)
  have files : filesIn sharedStart.disk sampleSettings.sources = sharedFiles := by
    rw [filesIn_eq (by decide), show sampleSettings.sources.goal sharedStart.disk.current = ["w", "s"]
      by decide, below]
    decide
  unfold registeredFiles selectedFiles
  rw [files]
  decide

theorem shared_registered : (register sampleSettings).Yields sharedStart 2 sharedRun.2 := by
  obtain ⟨_, outcome, _⟩ := shared_facts
  have ran : (registerFiles sampleSettings sharedFiles).Yields sharedStart () sharedRun.2 :=
    Step.yields_perform outcome
  refine yields_register.2 ⟨by decide, ⟨_, rfl⟩, ⟨_, rfl⟩, ?_, ?_⟩
  · rw [registeredFiles_shared]
    rfl
  · rw [registeredFiles_shared]
    exact ran

/-- The project keeps the file that the walk comes to last. -/
theorem shared_keeps : (register sampleSettings).Yields sharedStart 2 sharedRun.2 ∧
    (Keeps sampleSettings sharedRun.2.foreign (.ofText "a.b/c.eo") ↔
      LastOfName sampleSettings sharedStart.disk (.ofText "a.b/c.eo")) := by
  have selects : Selects sampleSettings sharedStart.disk (.ofText "a.b/c.eo") := by
    rw [← mem_registeredFiles (by decide) shared_registered, registeredFiles_shared]
    exact List.mem_cons_of_mem _ List.mem_cons_self
  exact ⟨shared_registered, ((register_keeps_iff (by decide) shared_facts.1.2 rfl
    shared_registered).2.1 _ selects).1⟩

/-- The file that the walk came to first is lost. -/
theorem source_replaced :
    ¬∀ (settings : Settings) (before after : Workspace) (count : Nat),
      before.disk.Tidy → before.disk.WellNamed → settings.strictNames = true →
      (register settings).Yields before count after →
      ∀ file, Selects settings before.disk file → Keeps settings after.foreign file := by
  intro keeps
  have selects : Selects sampleSettings sharedStart.disk (.ofText "a/b/c.eo") := by
    rw [← mem_registeredFiles (by decide) shared_registered, registeredFiles_shared]
    exact List.mem_cons_self
  obtain ⟨record, found, isSource⟩ := keeps sampleSettings sharedStart sharedRun.2 2 (by decide)
    shared_facts.1.2 rfl shared_registered _ selects
  obtain ⟨_, _, sources⟩ := shared_facts
  have among : record.source ∈ sharedRun.2.foreign.records.map fun record => record.source :=
    List.mem_map_of_mem (Catalog.mem_of_find? found)
  rw [sources, isSource] at among
  exact absurd among (by decide)

end Build

end EoAssembly
