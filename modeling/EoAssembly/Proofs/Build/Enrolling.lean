import EoAssembly.Proofs.Build.Pulling
import EoAssembly.Proofs.Disk.Tidy
import EoAssembly.Proofs.Text

/-!
Contract: registering leaves a steady workspace steady.

The files that are registered stand in the sources.  A strict name keeps a file apart from
the siblings of catalog files, and where names need not be strict the sources are apart
from the target.

Owns `Suitable` and the rules of registering in the regime of builds.
-/

namespace EoAssembly.Build

open ObjectName (Placeable Storable)
open Path (IsName)

variable {grounds : Grounds} {settings : Settings} {remote : Remote} {file : Path}

/-! ## Names of files -/

theorem mem_dropTail {tail text rest : String} (dropped : Text.dropTail? tail text = some rest) :
    ∀ c ∈ rest.toList, c ∈ text.toList := by
  intro c member
  rw [Text.dropTail?_eq_some.1 dropped, String.toList_append]
  exact List.mem_append_left _ member

/-- The name of an object of a file below the sources holds no slash. -/
theorem storable_idOf (names : ∀ name ∈ file.segments, IsName name) : Storable (idOf file) := by
  obtain ⟨segments⟩ := file
  simp only at names
  refine ObjectName.storable_of_noSlash fun c inside => ?_
  unfold idOf ObjectName.ofRelativePath at inside
  rw [Path.components_names fun name member => (names name member).names, namesOf_named] at inside
  unfold Text.joinAll at inside
  rw [String.toList_ofList] at inside
  rcases Text.mem_joined inside with dot | ⟨part, among, within⟩
  · rw [dot]
    decide
  · obtain ⟨name, member, same⟩ := List.mem_map.1 among
    rw [← same] at within
    rcases List.eq_nil_or_concat segments with empty | ⟨front, last, split⟩
    · rw [empty] at member
      exact absurd member (by simp [ObjectName.dropExtension])
    · rw [List.concat_eq_append] at split
      rw [split] at names member
      rw [dropExtension_concat] at member
      rcases List.mem_append.1 member with inFront | isLast
      · exact (names name (List.mem_append_left _ inFront)).noSlash c within
      · have plain := (names last (by simp)).noSlash
        rw [List.mem_singleton.1 isLast] at within
        cases dropped : Text.dropTail? ("." ++ sourceExtension) last with
        | none =>
          rw [dropped] at within
          exact plain c within
        | some rest =>
          rw [dropped] at within
          exact plain c (mem_dropTail dropped c within)

/-! ## Files to register -/

/-- A file below the sources that is there, and stays there when its name may be registered. -/
structure Suitable (grounds : Grounds) (file : Path) (disk : Disk) : Prop where
  names : ∀ name ∈ file.segments, IsName name
  stands : (grounds.strict → checkName file = .ok ()) →
    file.segments ≠ [] ∧ grounds.Lasting disk (grounds.sources.join file)

theorem stable_suitable : grounds.regime.Stable fun present => Suitable grounds file present.disk :=
  fun _ _ later here => ⟨here.names, fun checked =>
    ⟨(here.stands checked).1, later.1.lasting (here.stands checked).2⟩⟩

/-- A file with a strict name is no sibling of a catalog file. -/
theorem strict_not_sibling {names : List String} (plain : ∀ name ∈ names, IsName name)
    (checked : checkName ⟨names⟩ = .ok ()) {location : Location} :
    location ++ names ∉ grounds.siblings := by
  intro member
  obtain ⟨sibling, among, same⟩ := List.mem_map.1 member
  rcases List.eq_nil_or_concat names with empty | ⟨front, last, split⟩
  · rw [empty] at checked
    exact absurd checked (by decide)
  · rw [List.concat_eq_append] at split
    rw [split] at plain checked same
    rw [← List.append_assoc] at same
    have isLast := (List.append_inj' same rfl).2
    unfold checkName at checked
    rw [fileName?_of_names plain, Option.getD_some, ← List.singleton_inj.1 isLast] at checked
    have loose : ∀ other ∈ [Catalogs.foreignFile ++ ".tmp", Catalogs.externalFile ++ ".tmp"],
        hasStrictName other = false := by decide
    simp only [loose sibling among] at checked
    exact absurd checked (by simp)

/-- A file of a directory has an entry behind it. -/
theorem entry_of_mem_filesIn {disk : Disk} {directory : Path} (member : file ∈ filesIn disk directory) :
    ∃ content, disk.Passable directory ∧
      (directory.goal disk.current ++ file.segments, .file content) ∈ disk.entries := by
  unfold filesIn at member
  cases leads : disk.resolve? directory with
  | none => simp [leads] at member
  | some location =>
    simp only [leads] at member
    obtain ⟨listed, below, rfl⟩ := List.mem_map.1 member
    obtain ⟨_, passable, rfl⟩ := Disk.passable_of_resolve? leads
    exact ⟨listed.2, passable, Disk.mem_filesBelow.1 below⟩

/-- The files below the sources are suitable. -/
theorem suitable_of_filesIn (firm : grounds.Firm) {disk : Disk} (grounded : Grounded grounds disk)
    (decided : grounds.strict ∨ grounds.saving)
    (below : grounds.saving → ∀ file ∈ filesIn disk grounds.sources, file.segments ≠ [])
    (member : file ∈ filesIn disk grounds.sources) : Suitable grounds file disk := by
  obtain ⟨content, passable, among⟩ := entry_of_mem_filesIn member
  obtain ⟨names⟩ := file
  have plain : ∀ name ∈ names, IsName name := fun name inside =>
    grounded.named _ among name (List.mem_append_right _ inside)
  refine ⟨plain, fun checked => ?_⟩
  have nonempty : names ≠ [] := by
    rcases decided with strict | saving
    · intro empty
      have nameless : checkName ⟨[]⟩ ≠ .ok () := by decide
      have fine := checked strict
      simp only [empty] at fine
      exact nameless fine
    · exact below saving _ member
  have isLocal : grounds.Local (grounds.sources.join ⟨names⟩) := ⟨names, nonempty, plain, rfl⟩
  have components := Path.components_join_names grounds.sources nonempty
    fun name inside => (plain name inside).names
  have goal : (grounds.sources.join ⟨names⟩).goal grounds.current =
      grounds.sources.goal grounds.current ++ names :=
    Path.goal_of_names grounds.current components
  refine ⟨nonempty, Grounds.safe_local firm isLocal ?_, ?_⟩
  · rw [goal]
    rcases decided with strict | saving
    · exact strict_not_sibling plain (checked strict)
    · intro sibling
      obtain ⟨twin, _, atSibling⟩ := List.mem_map.1 sibling
      refine Grounds.outside_sources firm saving (Or.inr (List.prefix_append _ [twin])) ?_
      rw [atSibling]
      exact List.prefix_append _ _
  · have passableFile : disk.Passable (grounds.sources.join ⟨names⟩) :=
      (Disk.passable_of_names components).2 passable
    have ends : (grounds.sources.join ⟨names⟩).EndsInName := by
      rw [Path.join_names _ fun name inside => (plain name inside).names]
      exact Path.endsInName_append _ nonempty fun name inside => (plain name inside).names
    unfold Disk.exists?
    rw [Disk.entry_of_name ends passableFile, grounded.current, goal, ← grounded.current]
    unfold Disk.entryAt?
    rw [if_neg (List.append_ne_nil_of_right_ne_nil _ nonempty), List.lookup_isSome_iff]
    exact ⟨_, among, by simp⟩

/-! ## Registering -/

/-- On saving grounds a record that may be registered is not pulled. -/
def Unpulled (grounds : Grounds) (record : Record) : Prop :=
  grounds.saving → record.pulled = false

section Stages

variable (firm : grounds.Firm) (suits : grounds.Suits settings)

include firm suits

theorem governs_registerFile :
    grounds.regime.Governs (fun present => Suitable grounds file present.disk ∧
        Throughout (Unpulled grounds) present)
      (registerFile settings file) fun _ present => Throughout (Unpulled grounds) present := by
  let said : Catalog → Prop := fun catalog => ∀ record ∈ catalog.records, Unpulled grounds record
  have exported : (grounds.saving → grounds.Local (grounds.sources.join file)) →
      grounds.regime.Governs (Throughout (Unpulled grounds))
        (do let _ ← Step.addExternal (idOf file)
            let _ ← Step.updateExternal (idOf file)
              (asExported (grounds.sources.join file) settings.project.version))
        fun _ present => Throughout (Unpulled grounds) present := by
    intro isLocal
    have added : grounds.regime.Governs (Throughout (Unpulled grounds))
        (Step.addExternal (idOf file)) fun record present =>
          Throughout (Unpulled grounds) present ∧ present.external.find? (idOf file) = some record :=
      governs_addExternal firm said
    exact .bind added fun record => .bind ((governs_export firm said isLocal).from_
      fun _ _ here => ⟨here.1, record, here.2⟩) fun _ => .pure fun _ _ here => here
  have registered : (grounds.strict → checkName file = .ok ()) →
      grounds.regime.Governs (fun present => Suitable grounds file present.disk ∧
          Throughout (Unpulled grounds) present)
        (do let _ ← Step.addForeign (idOf file)
            let _ ← Step.updateForeign (idOf file) (asRegistered (grounds.sources.join file))
            if settings.withVersions then
              let _ ← Step.addExternal (idOf file)
              let _ ← Step.updateExternal (idOf file)
                (asExported (grounds.sources.join file) settings.project.version))
        fun _ present => Throughout (Unpulled grounds) present := by
    intro checked
    refine .given (fun known : (∀ name ∈ file.segments, IsName name) ∧ file.segments ≠ [] => ?_)
      fun _ _ here => ⟨here.1.names, (here.1.stands checked).1⟩
    obtain ⟨names, some_⟩ := known
    have isLocal : grounds.Local (grounds.sources.join file) := ⟨file.segments, some_, names, rfl⟩
    refine .bind (((governs_add firm (Unpulled grounds) fun _ => rfl).keep stable_suitable).from_
      fun _ _ here => ⟨here.2, here.1⟩) fun record => ?_
    refine .bind ((governs_update firm (Unpulled grounds)).from_ fun present holds here => ?_)
      fun _ => .ite (fun _ => (exported fun _ => isLocal).from_ fun _ _ here => here.2)
        fun _ => .pure fun _ _ here => here.2
    obtain ⟨⟨found, unpulled⟩, suitable⟩ := here
    have borne := holds.1.foreign.found found
    have notPulled := unpulled record (Catalog.mem_of_find? found)
    have sameId := Catalog.id_of_find? found
    refine ⟨unpulled, record, found, notPulled, ?_⟩
    rw [← sameId] at found
    refine allowed_registered borne found firm ?_ ?_ (suitable.stands checked).2 isLocal notPulled
    · rw [sameId]
      exact storable_idOf names
    · rw [sameId]
      exact fun strict => (placeable_of_file names (checked strict)).2
  unfold registerFile
  rw [suits.sources]
  refine .ite (fun _ => .bind governs_outcome fun _ => ?_) fun loose => ?_
  · refine .given (fun checked : checkName file = .ok () => ?_) fun _ _ here => here.1
    exact (registered fun _ => checked).from_ fun _ _ here => here.2
  · exact registered fun strict => absurd (suits.strict strict) loose

theorem governs_registerFiles (files : List Path) :
    grounds.regime.Governs (fun present => (∀ file ∈ files, Suitable grounds file present.disk) ∧
        Throughout (Unpulled grounds) present)
      (registerFiles settings files) fun _ present => Throughout (Unpulled grounds) present := by
  induction files with
  | nil => exact .pure fun _ _ here => here.2
  | cons file rest inductionHypothesis =>
    have stable : grounds.regime.Stable fun present => ∀ other ∈ file :: rest,
        Suitable grounds other present.disk := .all fun _ => .all fun _ => stable_suitable
    refine .bind (((governs_registerFile firm suits).keep stable).from_ fun _ _ here =>
      ⟨⟨here.1 file List.mem_cons_self, here.2⟩, here.1⟩) fun _ => ?_
    exact inductionHypothesis.from_ fun _ _ here =>
      ⟨fun other member => here.2 other (List.mem_cons_of_mem _ member), here.1⟩

theorem governs_register (decided : grounds.strict ∨ grounds.saving) :
    grounds.regime.Governs (fun present => Throughout (Unpulled grounds) present ∧
        (grounds.saving → ∀ file ∈ filesIn present.disk grounds.sources, file.segments ≠ []))
      (register settings) fun _ _ => True := by
  unfold register
  rw [suits.sources]
  refine .bind governs_look fun disk => ?_
  have rest : grounds.regime.Governs (fun present => disk = present.disk ∧
        Throughout (Unpulled grounds) present ∧
          (grounds.saving → ∀ file ∈ filesIn present.disk grounds.sources, file.segments ≠ []))
      (do let included ← Step.ofOutcome (Settings.patterns settings.included)
          let excluded ← Step.ofOutcome (Settings.patterns settings.excluded)
          let files := selectedFiles disk grounds.sources included excluded
          registerFiles settings files
          pure files.length) fun _ _ => True := by
    refine .bind (governs_outcome.telling fun _ _ _ here => here.2) fun included => ?_
    refine .bind (governs_outcome.telling fun _ _ _ here => here.2) fun excluded => ?_
    refine .bind ((governs_registerFiles firm suits _).from_ fun present holds here => ⟨?_, here.2.1⟩)
      fun _ => .pure fun _ _ _ => trivial
    intro file member
    have listed := (List.mem_filter.1 member).1
    rw [here.1] at listed
    exact suitable_of_filesIn firm holds.1.grounded decided here.2.2 listed
  exact .ite (fun _ => .bind (.fail fun _ holds _ => stops_of_holds holds) fun _ => rest)
    fun _ => rest

end Stages

end EoAssembly.Build
