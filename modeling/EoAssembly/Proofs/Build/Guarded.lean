import EoAssembly.Proofs.Build.Fetching
import EoAssembly.Proofs.Catalog.Persist

/-!
Contract: the files below the pulled sources and the provenance logs.

Pulling writes there only the source and the log of a name that it fetches.  All else
that it does is quiet: documents, the catalog file and its sibling, and what the store
keeps for itself are elsewhere, and a directory is made only on the way to a file.

Owns `Guarded`, `Disjoint`, `Walkable`, `Quiet`, and that every operation but writing a
source or a log is quiet.
-/

namespace EoAssembly

open Path (Component)

namespace Path

/-- What components reach lies on the way to their goal, or was left upwards further down. -/
theorem onward_or_left {components : List Component} (rootless : .root ∉ components)
    {location reached : Location} (start : reached <+: location) :
    reached <+: goalFrom location components ∨
      ∃ passed ∈ leftFrom location components, reached <+: passed := by
  induction components generalizing location with
  | nil => exact Or.inl start
  | cons component rest inductionHypothesis =>
    have later := fun member => rootless (List.mem_cons_of_mem component member)
    cases component with
    | root => exact absurd List.mem_cons_self rootless
    | here => exact inductionHypothesis later start
    | up => exact Or.inr ⟨location, List.mem_cons_self, start⟩
    | named name => exact inductionHypothesis later (start.trans (List.prefix_append _ _))

theorem wayFrom_onward {components : List Component} (rootless : .root ∉ components)
    {location reached : Location} (member : reached ∈ wayFrom location components) :
    reached <+: goalFrom location components ∨
      ∃ passed ∈ leftFrom location components, reached <+: passed := by
  induction components generalizing location with
  | nil => exact absurd member (by simp [wayFrom])
  | cons component rest inductionHypothesis =>
    have later := fun member => rootless (List.mem_cons_of_mem component member)
    cases component with
    | root => exact absurd List.mem_cons_self rootless
    | here => exact inductionHypothesis later member
    | up =>
      refine (inductionHypothesis later member).imp_right ?_
      rintro ⟨passed, left, below⟩
      exact ⟨passed, List.mem_cons_of_mem _ left, below⟩
    | named name =>
      rcases List.mem_cons.1 member with here | behind
      · rw [here]
        exact onward_or_left later List.prefix_rfl
      · exact inductionHypothesis later behind

/-- What a path reaches lies on the way to its goal, or was left upwards further down. -/
theorem way_onward {current reached : Location} {path : Path}
    (member : reached ∈ path.way current) :
    reached <+: path.goal current ∨ ∃ passed ∈ path.left current, reached <+: passed := by
  unfold way at member
  unfold goal left
  rcases path.components_root with ⟨rest, whole, rootless⟩ | rootless
  · rw [whole] at member ⊢
    exact @wayFrom_onward rest rootless [] reached member
  · exact wayFrom_onward rootless member

end Path

namespace Disk

/-- A location above a directory is a directory. -/
theorem Sound.directory_above {disk : Disk} (sound : disk.Sound) {location other : Location}
    (directory : disk.directoryAt other = true) (above : location <+: other) :
    disk.directoryAt location = true := by
  obtain ⟨behind, rfl⟩ := above
  cases behind with
  | nil => simpa using directory
  | cons name rest =>
    have stands : disk.entryAt? (location ++ name :: rest) ≠ none := by
      rw [directoryAt_iff.1 directory]
      simp
    exact sound.above (by simp) stands

/-- Where a path can be walked, directories appear on the way to its goal only. -/
theorem Touches.onward {written gone : List Location} {before after : Disk} {path : Path}
    {location : Location}
    (touches : Touches written gone (path.way before.current) before after) (sound : before.Sound)
    (passable : before.Passable path) (unwritten : location ∉ written) (kept : location ∉ gone) :
    after.entryAt? location = before.entryAt? location ∨
      (location <+: path.goal before.current ∧ before.entryAt? location = none ∧
        after.entryAt? location = some .directory) := by
  rcases touches.others location unwritten kept with same | ⟨reached, nothing, directory⟩
  · exact Or.inl same
  · rcases Path.way_onward reached with onWay | ⟨passed, left, below⟩
    · exact Or.inr ⟨onWay, nothing, directory⟩
    · have there := sound.directory_above (passable passed left) below
      rw [directoryAt_iff, nothing] at there
      exact absurd there (by simp)

end Disk

namespace Build

open Disk (Touches)
open ObjectName (Placeable)

variable {settings : Settings} {remote : Remote} {own : Location → Prop} {file : Path}
  {current location : Location} {before between after : Workspace} {name : String}

/-! ## Guarded files -/

/-- A location at or below the directory of pulled sources or that of provenance logs. -/
def Guarded (settings : Settings) (current location : Location) : Prop :=
  (settings.target.child pulledDirectory).goal current <+: location ∨
    settings.protocols.goal current <+: location

/-- The target and the protocols directory are disjoint; the catalog file, its sibling, and
the files that the store keeps for itself are in neither directory that a pull is about. -/
structure Disjoint (settings : Settings) (own : Location → Prop) (file : Path)
    (current : Location) : Prop where
  target : ¬settings.target.goal current <+: settings.protocols.goal current
  protocols : ¬settings.protocols.goal current <+: settings.target.goal current
  catalog : ¬Guarded settings current (file.goal current)
  sibling : ¬Guarded settings current ((file.extended ".tmp").goal current)
  store : ∀ location, own location → ¬Guarded settings current location ∧
    location ∉ settings.target.left current ∧ location ∉ settings.protocols.left current ∧
    location ∉ file.left current

/-- A workspace with a tree of files and a catalog in order, where the directories that the
paths of a pull leave upwards are there. -/
structure Walkable (settings : Settings) (file : Path) (current : Location)
    (present : Workspace) : Prop where
  sound : present.disk.Sound
  current : present.disk.current = current
  sorted : present.foreign.Sorted
  path : present.foreign.path = file
  target : present.disk.Passable settings.target
  protocols : present.disk.Passable settings.protocols
  catalog : present.disk.Passable file

/-- Nothing happened to guarded files, no source was asked for, and the slot of the table is
as it was. -/
structure Quiet (settings : Settings) (current : Location) (before after : Workspace) :
    Prop where
  files : ∀ location, Guarded settings current location →
    after.disk.entryAt? location = before.disk.entryAt? location
  asked : sourcesAsked after.journal = sourcesAsked before.journal
  slot : after.slot = before.slot
  instant : after.instant = before.instant

theorem Quiet.refl (settings : Settings) (current : Location) (present : Workspace) :
    Quiet settings current present present :=
  ⟨fun _ _ => rfl, rfl, rfl, rfl⟩

theorem Quiet.trans (first : Quiet settings current before between)
    (second : Quiet settings current between after) : Quiet settings current before after :=
  ⟨fun location guarded => (second.files location guarded).trans (first.files location guarded),
    second.asked.trans first.asked, second.slot.trans first.slot,
    second.instant.trans first.instant⟩

theorem goal_pulledDirectory : (settings.target.child pulledDirectory).goal current =
    settings.target.goal current ++ [pulledDirectory] :=
  Path.goal_of_names current (Path.components_child settings.target isName_pulled)

/-- What is above a location that is not guarded is not guarded. -/
theorem Guarded.below {other : Location} (guarded : Guarded settings current location)
    (below : location <+: other) : Guarded settings current other :=
  guarded.imp (fun above => above.trans below) fun above => above.trans below

theorem Walkable.touch {written gone made : List Location} {disk : Disk}
    (walkable : Walkable settings file current before)
    (touches : Touches written gone made before.disk disk) :
    Walkable settings file current { before with disk := disk } where
  sound := touches.sound
  current := touches.current.trans walkable.current
  sorted := walkable.sorted
  path := walkable.path
  target := touches.passable walkable.target
  protocols := touches.passable walkable.protocols
  catalog := touches.passable walkable.catalog

/-- Writing on the way to a file that is not guarded is quiet. -/
theorem Walkable.quiet {written gone : List Location} {disk : Disk} {path : Path}
    (walkable : Walkable settings file current before)
    (touches : Touches written gone (path.way current) before.disk disk)
    (passable : before.disk.Passable path) (free : ¬Guarded settings current (path.goal current))
    (writes : ∀ location ∈ written, ¬Guarded settings current location)
    (loses : ∀ location ∈ gone, ¬Guarded settings current location) :
    Quiet settings current before { before with disk := disk } := by
  refine ⟨fun location guarded => ?_, rfl, rfl, rfl⟩
  rw [← walkable.current] at touches free
  rcases touches.onward walkable.sound passable (fun member => writes location member guarded)
    (fun member => loses location member guarded) with same | ⟨onWay, _⟩
  · exact same
  · rw [walkable.current] at onWay free
    exact absurd (guarded.below onWay) free

/-- Where a catalog is and what it holds in memory is no matter of guarded files. -/
theorem Walkable.persist {catalog : Catalog} {disk : Disk} {outcome : Except Failure Unit}
    (walkable : Walkable settings file current before) (disjoint : Disjoint settings own file current)
    (sorted : catalog.Sorted) (isPath : catalog.path = file) (ends : file.EndsInName)
    (ran : catalog.persist before.disk = (outcome, disk)) :
    Walkable settings file current { before with foreign := catalog, disk := disk } ∧
      Quiet settings current before { before with foreign := catalog, disk := disk } := by
  have touches := Catalog.touches_persist walkable.sound (isPath ▸ ends) ran
  unfold Catalog.sibling at touches
  rw [isPath, walkable.current] at touches
  have still := walkable.touch touches
  have quiet := walkable.quiet touches walkable.catalog disjoint.catalog
    (by simpa using ⟨disjoint.catalog, disjoint.sibling⟩) (by simpa using disjoint.sibling)
  exact ⟨⟨still.sound, still.current, sorted, isPath, still.target, still.protocols, still.catalog⟩,
    ⟨quiet.files, quiet.asked, quiet.slot, quiet.instant⟩⟩

/-! ## Quiet operations -/

theorem quiet_add {id : String} {record : Record}
    (walkable : Walkable settings file current before) (disjoint : Disjoint settings own file current)
    (ran : (Step.addForeign id).Yields before record after) :
    Walkable settings file current after ∧ Quiet settings current before after := by
  obtain ⟨catalog, disk, added, result⟩ := Step.yields_addForeign.1 ran
  rw [result]
  rcases Catalog.add_ok added with ⟨_, rfl, rfl⟩ | ⟨_, _, same, persisted⟩
  · exact ⟨walkable, Quiet.refl settings current before⟩
  · have isPath : catalog.path = file := by
      rw [same]
      exact walkable.path
    exact walkable.persist disjoint (same ▸ Catalog.sorted_put walkable.sorted) isPath
      (isPath ▸ Catalog.persist_endsInName persisted) persisted

theorem quiet_update {id : String} {change : Record → Record} {record : Record}
    (walkable : Walkable settings file current before) (disjoint : Disjoint settings own file current)
    (ran : (Step.updateForeign id change).Yields before record after) :
    Walkable settings file current after ∧ Quiet settings current before after := by
  obtain ⟨catalog, disk, updated, result⟩ := Step.yields_updateForeign.1 ran
  obtain ⟨_, _, _, _, same, rest⟩ := Catalog.update_ok updated
  have isPath : catalog.path = file := by
    rw [same]
    exact walkable.path
  have sorted : catalog.Sorted := same ▸ Catalog.sorted_put walkable.sorted
  rw [result]
  rcases rest with rfl | persisted
  · exact ⟨⟨walkable.sound, walkable.current, sorted, isPath, walkable.target, walkable.protocols,
      walkable.catalog⟩, ⟨fun _ _ => rfl, rfl, rfl, rfl⟩⟩
  · exact walkable.persist disjoint sorted isPath (isPath ▸ Catalog.persist_endsInName persisted) persisted

theorem not_guarded_parsed (disjoint : Disjoint settings own file current)
    (placeable : Placeable name) :
    ¬Guarded settings current ((parsedPlace settings.target name).goal current) := by
  have goal : (parsedPlace settings.target name).goal current = settings.target.goal current ++
      parsedDirectory :: ObjectName.segments documentExtension name :=
    Path.goal_of_names current (components_stage isName_parsed isExtension_document placeable _)
  rw [goal]
  rintro (pulled | logged)
  · rw [goal_pulledDirectory] at pulled
    have names := (List.prefix_append_right_inj _).1 pulled
    exact absurd (List.cons_prefix_cons.1 names).1 (by decide)
  · rcases List.prefix_or_prefix_of_prefix logged (List.prefix_append _ _) with above | below
    · exact disjoint.protocols above
    · exact disjoint.target below

/-- Making the document of a pulled source is quiet. -/
theorem quiet_parseObject {place : Path} (walkable : Walkable settings file current before)
    (disjoint : Disjoint settings own file current) (placeable : Placeable name)
    (ran : (parseObject settings remote name).Yields before place after) :
    Walkable settings file current after ∧ Quiet settings current before after := by
  obtain ⟨_, _, _, _, _, parsed, saved, _, _, _, ranParse, _, ranSave, ranUpdate⟩ :=
    yields_parseObject.1 ran
  have components : (parsedPlace settings.target name).components = _ :=
    components_stage isName_parsed isExtension_document placeable settings.target
  have walkableParsed : Walkable settings file current parsed := by
    rw [(Step.yields_parse.1 ranParse).2]
    exact ⟨walkable.sound, walkable.current, walkable.sorted, walkable.path, walkable.target,
      walkable.protocols, walkable.catalog⟩
  have quietParsed : Quiet settings current before parsed := by
    rw [(Step.yields_parse.1 ranParse).2]
    exact ⟨fun _ _ => rfl, by simp [sourcesAsked], rfl, rfl⟩
  obtain ⟨text, disk, _, wrote, result⟩ := Step.yields_save.1 ranSave
  have free := not_guarded_parsed disjoint placeable
  have touches := (Document.writeBelow_ok walkableParsed.sound wrote).2.2.1
  rw [walkableParsed.current] at touches
  have passable : parsed.disk.Passable (parsedPlace settings.target name) :=
    (Disk.passable_of_names components).2 walkableParsed.target
  have quietSaved := walkableParsed.quiet touches passable free (by simpa using free) (by simp)
  have walkableSaved := walkableParsed.touch touches
  rw [← result] at quietSaved walkableSaved
  obtain ⟨walkableLast, quietLast⟩ := quiet_update walkableSaved disjoint ranUpdate
  exact ⟨walkableLast, (quietParsed.trans quietSaved).trans quietLast⟩

/-- Fetching asks for a source, and the store keeps to its own files. -/
theorem fetch_asks {text : String} (walkable : Walkable settings file current before)
    (disjoint : Disjoint settings own file current) (store : remote.KeepsTo own)
    (ran : (Step.fetch remote name).Yields before text after) :
    Walkable settings file current after ∧
      (remote.fetch name before.disk).1 = .ok text ∧
      (∀ location, Guarded settings current location →
        after.disk.entryAt? location = before.disk.entryAt? location) ∧
      sourcesAsked after.journal = sourcesAsked before.journal ++ [name] ∧
      after.foreign = before.foreign ∧ after.slot = before.slot ∧ after.instant = before.instant := by
  obtain ⟨disk, fetched, result⟩ := Step.yields_fetch.1 ran
  obtain ⟨sound, sameCurrent, outside⟩ := store name before.disk walkable.sound
  rw [fetched] at sound sameCurrent outside
  simp only at sound sameCurrent outside
  have walks : ∀ path : Path, (∀ passed ∈ path.left current, ¬own passed) →
      before.disk.Passable path → disk.Passable path := fun path free =>
    (Disk.passable_congr sameCurrent fun passed member =>
      outside passed (free passed (walkable.current ▸ member))).2
  rw [result, fetched]
  refine ⟨⟨sound, sameCurrent.trans walkable.current, walkable.sorted, walkable.path, ?_, ?_, ?_⟩,
    rfl, ?_, sourcesAsked_source _ _, rfl, rfl, rfl⟩
  · exact walks _ (fun passed member owned => (disjoint.store passed owned).2.1 member)
      walkable.target
  · exact walks _ (fun passed member owned => (disjoint.store passed owned).2.2.1 member)
      walkable.protocols
  · exact walks _ (fun passed member owned => (disjoint.store passed owned).2.2.2 member)
      walkable.catalog
  · exact fun location guarded => outside location fun owned =>
      (disjoint.store location owned).1 guarded

end Build

end EoAssembly
