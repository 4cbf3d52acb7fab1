import EoAssembly.Proofs.Build.Complete
import EoAssembly.Proofs.Build.Names
import EoAssembly.Proofs.Build.Throughout
import EoAssembly.Proofs.Disk.Confined

/-!
Contract: whatever documents refer to, a pull writes inside the build.

A name that passes the check of places has its place behind the directory alone: only
plain names follow it, and none of them leads anywhere else.  Every file that a pull
writes is at such a place, so that wherever the pull stops the files outside of the
pulled sources, the documents, the provenance logs and the catalog are as they were.

Owns `ObjectName.Plain`, `PullArea`, `Spans`, and the frame of a pull for any outcome.
-/

namespace EoAssembly

/-! ## Plain names behind a directory -/

namespace ObjectName

variable {extension name segment base part : String} {parts : List String} {c : Char}

/-- A text that is one step down wherever paths are read: neither empty nor made of dots that
stand for a directory, and without characters that separate steps. -/
structure Plain (text : String) : Prop where
  some_ : text ≠ ""
  here : text ≠ "."
  up : text ≠ ".."
  apart : ∀ c ∈ text.toList, c ≠ '/' ∧ c ≠ '\\'

/-- The parts of a place are written in the letters of the parts of the base, and dots. -/
theorem letter_placeParts {dotted : Bool} (member : part ∈ placeParts dotted parts)
    (inside : c ∈ part.toList) : c = '.' ∨ ∃ other ∈ parts, c ∈ other.toList := by
  induction parts generalizing dotted with
  | nil => simp [placeParts] at member
  | cons first rest inductionHypothesis =>
    have later : ∀ {dotted}, part ∈ placeParts dotted rest →
        c = '.' ∨ ∃ other ∈ first :: rest, c ∈ other.toList := by
      intro dotted behind
      apply (inductionHypothesis behind).imp_right
      rintro ⟨other, among, within⟩
      exact ⟨other, List.mem_cons_of_mem first among, within⟩
    unfold placeParts at member
    split at member
    · exact later member
    · rcases List.mem_cons.1 member with own | behind
      · rw [own] at inside
        split at inside
        · rw [String.toList_append] at inside
          apply (List.mem_append.1 inside).imp
          · simp
          · exact fun within => ⟨first, List.mem_cons_self, within⟩
        · exact Or.inr ⟨first, List.mem_cons_self, inside⟩
      · exact later behind

/-- An extension adds its own letters and a dot. -/
theorem letter_fileBelow (member : segment ∈ fileBelow extension parts)
    (inside : c ∈ segment.toList) :
    c = '.' ∨ c ∈ extension.toList ∨ ∃ part ∈ parts, c ∈ part.toList := by
  induction parts with
  | nil => simp [fileBelow] at member
  | cons first rest inductionHypothesis =>
    cases rest with
    | nil =>
      rw [List.mem_singleton.1 member] at inside
      have chars : (s!"{first}.{extension}").toList = first.toList ++ '.' :: extension.toList := by
        simp [toString]
      rw [chars, List.mem_append, List.mem_cons] at inside
      rcases inside with front | dot | behind
      · exact Or.inr (Or.inr ⟨first, List.mem_cons_self, front⟩)
      · exact Or.inl dot
      · exact Or.inr (Or.inl behind)
    | cons second more =>
      rcases List.mem_cons.1 member with own | behind
      · rw [own] at inside
        exact Or.inr (Or.inr ⟨first, List.mem_cons_self, inside⟩)
      · apply (inductionHypothesis behind).imp_right (Or.imp_right _)
        rintro ⟨part, among, within⟩
        exact ⟨part, List.mem_cons_of_mem first among, within⟩

/-- The names behind the directory of a place are written in the letters of the base, of the
version and of the extension, and dots. -/
theorem letter_segments (member : segment ∈ segments extension name)
    (inside : c ∈ segment.toList) : c = '.' ∨ c ∈ extension.toList ∨
      c ∈ (split name).1.toList ∨ ∃ tag ∈ (split name).2, c ∈ tag.toList := by
  rcases List.mem_append.1 member with version | below
  · exact Or.inr (Or.inr (Or.inr ⟨segment, Option.mem_toList.1 version, inside⟩))
  · rcases letter_fileBelow below inside with dot | own | ⟨part, among, within⟩
    · exact Or.inl dot
    · exact Or.inr (Or.inl own)
    · rcases letter_placeParts among within with dot | ⟨other, piece, letter⟩
      · exact Or.inl dot
      · obtain ⟨chars, isPiece, rfl⟩ := List.mem_map.1 piece
        rw [String.toList_ofList] at letter
        exact Or.inr (Or.inr (Or.inl (Text.mem_of_mem_pieces isPiece letter)))

theorem apart_of_holdsSeparator {text : String} (plain : holdsSeparator text = false) :
    ∀ c ∈ text.toList, c ≠ '/' ∧ c ≠ '\\' := by
  intro c inside
  unfold holdsSeparator Text.holds at plain
  rw [Bool.or_eq_false_iff, List.contains_eq_mem, List.contains_eq_mem, decide_eq_false_iff_not,
    decide_eq_false_iff_not] at plain
  exact ⟨fun slash => plain.1 (slash ▸ inside), fun slash => plain.2 (slash ▸ inside)⟩

/-- A name that passes the check of places has neither slash in its base or its version. -/
theorem apart_of_checkPlace (passes : checkPlace name = .ok ()) :
    (∀ c ∈ (split name).1.toList, c ≠ '/' ∧ c ≠ '\\') ∧
      ∀ tag ∈ (split name).2, ∀ c ∈ tag.toList, c ≠ '/' ∧ c ≠ '\\' := by
  unfold checkPlace at passes
  simp only at passes
  split at passes
  · exact absurd passes (by simp)
  · next fine =>
    simp only [Bool.or_eq_true, not_or, Bool.not_eq_true] at fine
    refine ⟨apart_of_holdsSeparator fine.1, fun tag version => ?_⟩
    have good := fine.2
    rw [version, Option.any_some] at good
    unfold badVersion at good
    exact apart_of_holdsSeparator (Bool.or_eq_false_iff.1 good).2

/-- Behind the directory of a place come plain names only. -/
theorem plain_segments (plain : IsExtension extension)
    (apart : ∀ c ∈ extension.toList, c ≠ '/' ∧ c ≠ '\\') (passes : checkPlace name = .ok ()) :
    ∀ segment ∈ segments extension name, Plain segment := by
  intro segment member
  have isName := segments_names plain.noSlash (placeable_of_checkPlace passes) segment member
  obtain ⟨base, version⟩ := apart_of_checkPlace passes
  refine ⟨isName.names.ne_empty, isName.names.ne_dot, (Path.names_iff.1 isName.names).2,
    fun c inside => ?_⟩
  rcases letter_segments member inside with dot | own | ofBase | ⟨tag, isVersion, ofTag⟩
  · rw [dot]
    decide
  · exact apart c own
  · exact base c ofBase
  · exact version tag isVersion c ofTag

end ObjectName

/-! ## Where a pull writes -/

namespace Build

open Disk (Confined)
open ObjectName (IsExtension Plain checkPlace place placeable_of_checkPlace segments)
open Path (Component)

variable {settings : Settings} {remote : Remote} {own area : Location → Prop} {file path : Path}
  {start : Disk} {name id text : String} {current : Location}

/-- A location below a directory, which is not the directory. -/
def Beneath (directory location : Location) : Prop :=
  directory <+: location ∧ location ≠ directory

/-- Where a pull may write, with the catalog of the build at `file`. -/
inductive PullArea (settings : Settings) (file : Path) (own : Location → Prop)
    (current location : Location) : Prop where
  | source (beneath : Beneath ((settings.target.child pulledDirectory).goal current) location)
  | document (beneath : Beneath ((settings.target.child parsedDirectory).goal current) location)
  | log (beneath : Beneath (settings.protocols.goal current) location)
  | catalog (same : location = file.goal current)
  | sibling (same : location = (file.extended ".tmp").goal current)
  /-- What the store keeps for itself. -/
  | store (owned : own location)

/-- The place of a name that has a file of its own is below the directory. -/
theorem beneath_place {extension : String} (plain : IsExtension extension)
    (passes : checkPlace name = .ok ()) (some_ : segments extension name ≠ []) (directory : Path)
    (current : Location) :
    Beneath (directory.goal current) ((place name directory extension).goal current) := by
  have components := ObjectName.components_place plain.noSlash (placeable_of_checkPlace passes) directory
  rw [Path.goal_of_names current components]
  exact ⟨List.prefix_append _ _, fun same => some_ (by simpa using same)⟩

/-! ## Operations -/

/-- The catalog is still at its path, and the disk was changed in an area only. -/
def ConfinedFrom (area : Location → Prop) (file : Path) (start : Disk) (present : Workspace) : Prop :=
  present.foreign.path = file ∧ Confined area start present.disk

theorem confined_write (goal : area (path.goal start.current)) (text : String) :
    (Step.write path text).KeepsThroughout (ConfinedFrom area file start) := by
  rintro before outcome after ⟨isFile, confined⟩ ran
  obtain ⟨disk, wrote, rfl⟩ := Step.perform_onDisk ran
  rw [← confined.current] at goal
  exact ⟨isFile, confined.trans (Document.confined_writeBelow confined.sound goal wrote)⟩

/-- A document without a text is not written at all. -/
theorem confined_save (goal : area (path.goal start.current)) (document : Document) :
    (Step.save document path).KeepsThroughout (ConfinedFrom area file start) := by
  intro before outcome after here ran
  cases rendered : document.render with
  | error failure =>
    obtain ⟨disk, saved, rfl⟩ := Step.perform_onDisk ran
    unfold Document.save at saved
    rw [rendered] at saved
    rw [← (Prod.mk.inj saved).2]
    exact here
  | ok text =>
    apply confined_write goal text before outcome after here
    unfold Step.save Document.save at ran
    rw [rendered] at ran
    exact ran

theorem confined_addForeign (goal : area (file.goal start.current))
    (sibling : area ((file.extended ".tmp").goal start.current)) (id : String) :
    (Step.addForeign id).KeepsThroughout (ConfinedFrom area file start) := by
  rintro before outcome after ⟨isFile, confined⟩ ran
  obtain ⟨catalog, disk, added, rfl⟩ := Step.perform_addForeign ran
  rw [← confined.current] at goal sibling
  obtain ⟨stays, change⟩ := Catalog.confined_add confined.sound isFile goal sibling added
  exact ⟨stays, confined.trans change⟩

theorem confined_updateForeign (goal : area (file.goal start.current))
    (sibling : area ((file.extended ".tmp").goal start.current)) (id : String)
    (change : Record → Record) :
    (Step.updateForeign id change).KeepsThroughout (ConfinedFrom area file start) := by
  rintro before outcome after ⟨isFile, confined⟩ ran
  obtain ⟨catalog, disk, updated, rfl⟩ := Step.perform_updateForeign ran
  rw [← confined.current] at goal sibling
  obtain ⟨stays, change⟩ := Catalog.confined_update confined.sound isFile goal sibling updated
  exact ⟨stays, confined.trans change⟩

theorem confined_fetch (store : remote.KeepsTo own) (kept : ∀ location, own location → area location)
    (name : String) : (Step.fetch remote name).KeepsThroughout (ConfinedFrom area file start) := by
  rintro before outcome after ⟨isFile, confined⟩ ran
  obtain ⟨sound, current, outside⟩ := store name before.disk confined.sound
  rw [← (Prod.mk.inj ran).2]
  refine ⟨isFile, confined.trans ⟨sound, current, fun location free => Or.inl ?_⟩⟩
  exact outside location fun owned => free (kept location owned)

theorem confined_table (remote : Remote) :
    (Step.table remote).KeepsThroughout (ConfinedFrom area file start) := by
  intro before outcome after here ran
  rw [← (Prod.mk.inj ran).2]
  exact here

theorem confined_parse (remote : Remote) (id text : String) :
    (Step.parse remote id text).KeepsThroughout (ConfinedFrom area file start) := by
  intro before outcome after here ran
  rw [← (Prod.mk.inj ran).2]
  exact here

/-! ## Stages of a pull -/

section Pull

variable {hash : Option String} {known : Option HashTable}

/-- An area with all that a pull may write for a name: its places, the catalog file at `file` and
the sibling of that, and what the store keeps for itself. -/
structure Spans (settings : Settings) (file : Path) (own : Location → Prop) (current : Location)
    (name : String) (area : Location → Prop) : Prop where
  source : area ((pulledPlace settings.target name).goal current)
  document : area ((parsedPlace settings.target name).goal current)
  log : area ((logPlace settings.protocols name).goal current)
  catalog : area (file.goal current)
  sibling : area ((file.extended ".tmp").goal current)
  store : ∀ location, own location → area location

/-- What a pull does for one name stays in every area that spans the name. -/
theorem confined_pullPinned (store : remote.KeepsTo own)
    (spans : Spans settings file own start.current name area) :
    (pullPinned settings remote name hash).KeepsThroughout (ConfinedFrom area file start) := by
  have records : Recording settings remote name (pulledPlace settings.target name) hash
      (ConfinedFrom area file start) :=
    { add := confined_addForeign spans.catalog spans.sibling name
      mark := confined_updateForeign spans.catalog spans.sibling name _
      parse := confined_parse remote name
      save := confined_save spans.document
      made := confined_updateForeign spans.catalog spans.sibling name _ }
  have fetches : (fetchSource remote name (pulledPlace settings.target name)
      (logPlace settings.protocols name)).KeepsThroughout (ConfinedFrom area file start) :=
    .bind (confined_fetch store spans.store name) fun text =>
      .bind (confined_write spans.source text) fun _ => .bind .look fun instant =>
        confined_write spans.log _
  unfold pullPinned
  refine .bind .look fun disk => ?_
  cases pullChoice disk settings.overwrite (pulledPlace settings.target name)
    (logPlace settings.protocols name) with
  | leave => exact .pure
  | fetch => exact .bind fetches fun _ => .bind records.recordPulled fun _ => .pure
  | keep => exact .bind .look fun recorded => .ite (.bind records.recordPulled fun _ => .pure) .pure

/-- What a pull of a project may do from a disk on. -/
abbrev PullFrom (settings : Settings) (file : Path) (own : Location → Prop) (start : Disk) :
    Workspace → Prop :=
  ConfinedFrom (PullArea settings file own start.current) file start

/-- A name that has a file of its own in every directory. -/
def HasFile (name : String) : Prop := ∀ extension, segments extension name ≠ []

/-- The places of a name that passes the check are below the directories. -/
theorem spans_pullArea (passes : checkPlace name = .ok ()) (hasFile : HasFile name) :
    Spans settings file own current name (PullArea settings file own current) where
  source := .source (beneath_place isExtension_source passes (hasFile _) _ _)
  document := .document (beneath_place isExtension_document passes (hasFile _) _ _)
  log := .log (beneath_place isExtension_log passes (hasFile _) _ _)
  catalog := .catalog rfl
  sibling := .sibling rfl
  store _ := .store

/-- The files of a name are written behind the check of its place. -/
theorem confined_pullName (store : remote.KeepsTo own) (hasFile : HasFile name) :
    (pullName settings remote known name).KeepsThroughout (PullFrom settings file own start) := by
  unfold pullName
  refine .bind .look fun left => .ite .pure (.bind_ofOutcome fun _ passes => ?_)
  refine .bind (pinned_keepsThroughout (confined_table remote)) fun _ => ?_
  exact .bind (confined_pullPinned store (spans_pullArea passes hasFile)) fun _ => .pure

theorem confined_pullEach (store : remote.KeepsTo own) {names : List String}
    (hasFile : ∀ name ∈ names, HasFile name) :
    (pullEach settings remote known names).KeepsThroughout (PullFrom settings file own start) := by
  induction names generalizing known with
  | nil => exact .pure
  | cons name rest inductionHypothesis =>
    refine .bind (confined_pullName store (hasFile name List.mem_cons_self)) fun _ => ?_
    exact .bind (inductionHypothesis fun other member => hasFile other (List.mem_cons_of_mem name member))
      fun _ => .pure

/-- A name that a document refers to has a file of its own. -/
theorem hasFile_referred {disk : Disk} {catalog : Catalog} (member : name ∈ referredNames disk catalog) :
    HasFile name := by
  obtain ⟨_, _, _, _, _, reads, among⟩ := mem_referredNames.1 member
  obtain ⟨_, _, _, _, same⟩ := namesIn_ok.1 reads
  rw [← same] at among
  exact fun extension => Document.segments_foreignNames among

theorem confined_pullAll (store : remote.KeepsTo own) :
    (pullAll settings remote).KeepsThroughout (PullFrom settings file own start) :=
  .bind_look fun _ _ => confined_pullEach store fun _ => hasFile_referred

end Pull

/-- Behind the directory of a place come plain names only, and wherever a pull stops, nothing
happened outside of the pulled sources, the documents, the logs and the catalog files, but for
directories that were made where nothing stood. -/
theorem pull_stays_inside :
    (∀ name, checkPlace name = .ok () → ∀ directory : Path, ∀ extension ∈ ["eo", "xmir", "log"],
      ∃ names : List String, (∀ part ∈ names, Plain part) ∧
        (place name directory extension).components =
          directory.components ++ names.map Component.named) ∧
    ∀ (settings : Settings) (remote : Remote) (own : Location → Prop) (start after : Workspace)
      (outcome : Except Failure Nat), remote.KeepsTo own → start.disk.Sound →
      (pullAll settings remote).perform start = (outcome, after) →
      ∀ location, ¬PullArea settings start.foreign.path own start.disk.current location →
        after.disk.entryAt? location = start.disk.entryAt? location ∨
          (start.disk.entryAt? location = none ∧
            after.disk.entryAt? location = some .directory) := by
  refine ⟨fun name passes directory extension member => ?_, ?_⟩
  · have extensions : ∀ extension ∈ ["eo", "xmir", "log"], IsExtension extension ∧
        ∀ c ∈ extension.toList, c ≠ '/' ∧ c ≠ '\\' := by
      simp only [List.forall_mem_cons]
      exact ⟨⟨by decide, by simp⟩, ⟨by decide, by simp⟩, ⟨by decide, by simp⟩, by simp⟩
    obtain ⟨plain, apart⟩ := extensions extension member
    exact ⟨segments extension name, ObjectName.plain_segments plain apart passes,
      ObjectName.components_place plain.noSlash (placeable_of_checkPlace passes) directory⟩
  · intro settings remote own start after outcome store sound ran
    have begins : PullFrom settings start.foreign.path own start.disk start :=
      ⟨rfl, .refl sound⟩
    exact (confined_pullAll store start outcome after begins ran).2.outside

/-- A project whose document refers to `b` and to a version of `c` that leads upwards. -/
def escapingStart : Workspace :=
  { sampleStart with
    disk := ⟨[(["w"], .directory), (["w", "t"], .directory), (["w", "t", "c.eo"], .file (.text "")),
      (["w", "d.xmir"], .file (.text
        "<program><objects><o base=\x22b\x22/><o base=\x22c\x22 ver=\x22..\x22/></objects></program>"))],
      ["w"], []⟩
    foreign := ⟨catalogPath sampleSettings.target,
      [{ Record.ofId "a" with optimized := some (.ofText "d.xmir") }]⟩ }

/-- What pulling comes to in the project. -/
def escapingRun : Except Failure Nat × Workspace :=
  (pullAll sampleSettings sampleRemote).perform escapingStart

/-- The source of `b` is pulled, the name that leads upwards stops the pull, and the file that it
leads to is as it was. -/
theorem escaping_stays_inside :
    escapingRun.1 = .error (ObjectName.misplaced "c|..") ∧
      escapingRun.2.disk.exists? (pulledPlace sampleSettings.target "b") = true ∧
      escapingRun.2.disk.entryAt? ["w", "t", "c.eo"] = some (.file (.text "")) ∧
      ∃ names : List String, (∀ part ∈ names, Plain part) ∧
        (place "b|1.0" (.ofText "t") "log").components =
          (Path.ofText "t").components ++ names.map Component.named := by
  have facts : escapingRun.1 = .error (ObjectName.misplaced "c|..") ∧
      escapingRun.2.disk.exists? (pulledPlace sampleSettings.target "b") = true ∧
      escapingStart.disk.entryAt? ["w", "t", "c.eo"] = some (.file (.text "")) := by
    decide +kernel
  obtain ⟨stopped, pulled, before⟩ := facts
  have outside : ¬PullArea sampleSettings escapingStart.foreign.path (fun _ => False)
      escapingStart.disk.current ["w", "t", "c.eo"] := by
    rintro (beneath | beneath | beneath | same | same | owned)
    · exact absurd beneath.1 (by decide +kernel)
    · exact absurd beneath.1 (by decide +kernel)
    · exact absurd beneath.1 (by decide +kernel)
    · exact absurd same (by decide +kernel)
    · exact absurd same (by decide +kernel)
    · exact owned
  have sound : escapingStart.disk.Sound := Disk.sound_of_entries (by decide) (by decide)
  have ran : (pullAll sampleSettings sampleRemote).perform escapingStart =
      (escapingRun.1, escapingRun.2) := (Prod.eta escapingRun).symm
  have stays := pull_stays_inside.2 sampleSettings sampleRemote (fun _ => False) escapingStart
    escapingRun.2 escapingRun.1 (fetchOf_keepsTo _ _ _) sound ran _ outside
  rw [before] at stays
  exact ⟨stopped, pulled, stays.resolve_right fun wrong => absurd wrong.1 (by simp),
    pull_stays_inside.1 "b|1.0" (by decide +kernel) _ "log" (by simp)⟩

end Build

end EoAssembly
