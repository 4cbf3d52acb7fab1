import EoAssembly.Proofs.Build.Enlisting
import EoAssembly.Proofs.Build.Enrolling
import EoAssembly.Proofs.Disk.Tidy

/-!
Contract: registering files that are registered.

A catalog file that stands can be written again, and then nothing else on the disk changes:
the directories on its way are there, and its sibling goes away again.  So registering
files whose objects are in the catalogs succeeds.

Owns `Entered` and `Renewed` for one catalog, and `Renewing` for a run over files.
-/

namespace EoAssembly

/-! ## The way to what is there -/

namespace Disk

variable {disk : Disk}

/-- Where all that components leave and lead to are directories, so is what they start from
and what they reach. -/
theorem directories_along (sound : disk.Sound) {components : List Path.Component}
    (rootless : .root ∉ components) {location : Location}
    (left : ∀ passed ∈ Path.leftFrom location components, disk.directoryAt passed = true)
    (goal : disk.directoryAt (Path.goalFrom location components) = true) :
    disk.directoryAt location = true ∧
      ∀ reached ∈ Path.wayFrom location components, disk.directoryAt reached = true := by
  induction components generalizing location with
  | nil => exact ⟨goal, by simp [Path.wayFrom]⟩
  | cons component rest inductionHypothesis =>
    have later := fun member => rootless (List.mem_cons_of_mem component member)
    cases component with
    | root => exact absurd List.mem_cons_self rootless
    | here => exact inductionHypothesis later left goal
    | up =>
      obtain ⟨passed, others⟩ := List.forall_mem_cons.1 left
      exact ⟨passed, (inductionHypothesis later others goal).2⟩
    | named name =>
      obtain ⟨here, way⟩ := inductionHypothesis later left goal
      have parent := sound.parents _ (by rw [directoryAt_iff.1 here]; simp)
      rw [List.dropLast_concat] at parent
      exact ⟨parent, List.forall_mem_cons.2 ⟨here, way⟩⟩

theorem directories_on_way (sound : disk.Sound) {path : Path} (passable : disk.Passable path)
    (goal : disk.directoryAt (path.goal disk.current) = true) :
    ∀ reached ∈ path.way disk.current, disk.directoryAt reached = true := by
  unfold Passable Path.left at passable
  unfold Path.goal at goal
  unfold Path.way
  rcases path.components_root with ⟨rest, whole, rootless⟩ | rootless
  · rw [whole] at passable goal ⊢
    have behind : ∀ passed ∈ Path.leftFrom [] rest, disk.directoryAt passed = true := passable
    exact (directories_along sound rootless behind goal).2
  · exact (directories_along sound rootless passable goal).2

end Disk

namespace Build

open Path (IsName)

variable {grounds : Grounds} {settings : Settings} {remote : Remote} {disk next : Disk}
  {catalog : Catalog} {file : String} {property : Record → Prop}

/-! ## One catalog -/

/-- A catalog file was written again, and nothing else changed. -/
structure Renewed (grounds : Grounds) (file : String) (before after : Disk) : Prop where
  grounded : Grounded grounds after
  calm : after.Calm
  directories : ∀ location, before.directoryAt location = true → after.directoryAt location = true
  others : ∀ location, location ≠ grounds.spot file →
    after.entryAt? location = before.entryAt? location

theorem spot_ne_spot {other : String} (different : file ≠ other) :
    grounds.spot file ≠ grounds.spot other :=
  fun same => different (List.singleton_inj.1 (List.append_cancel_left same))

/-- A file can be written in the target when all that its path reaches is there. -/
theorem receives_child (grounded : Grounded grounds disk)
    (way : ∀ reached ∈ grounds.target.way disk.current, disk.directoryAt reached = true)
    (plain : IsName file) (free : disk.directoryAt (grounds.spot file) = false)
    (allowed : (grounds.spot file).all Disk.nameAllowed = true) :
    disk.Receives (grounds.target.child file) := by
  have components := Path.components_child grounds.target plain
  have goal : (grounds.target.child file).goal disk.current = grounds.spot file := by
    rw [grounded.current]
    exact Path.goal_of_names grounds.current components
  have above : ∀ reached ∈ Path.above disk.current (grounds.target.child file),
      disk.directoryAt reached = true := by
    unfold Path.above
    rw [components, List.dropLast_concat]
    exact way
  refine ⟨Path.endsInName_child _ plain, fun reached member => Or.inl (above reached member),
    fun member => ?_, ?_, ?_⟩
  · have wrong := above _ member
    rw [goal, free] at wrong
    exact absurd wrong (by simp)
  · rw [goal]
    exact free
  · rw [goal]
    exact allowed

/-- A catalog file with records can be written again. -/
theorem Held.renew {again : Catalog} (firm : grounds.Firm) (grounded : Grounded grounds disk)
    (calm : disk.Calm) (known : file ∈ catalogNames) (held : Held grounds file disk catalog)
    (some_ : catalog.records ≠ []) (path : again.path = grounds.target.child file) :
    ∃ next, again.persist disk = (.ok (), next) ∧ Renewed grounds file disk next ∧
      Held grounds file next again := by
  obtain ⟨plain, longer, _, _, different⟩ := catalogNames_plain file known
  have stands := held.holds.resolve_right fun empty => some_ empty.1
  have current := grounded.current
  have components := Path.components_child grounds.target plain
  have siblingPath : again.sibling = grounds.target.child (file ++ ".tmp") := by
    unfold Catalog.sibling
    rw [path, Path.extended_child firm.target plain longer]
  have siblingComponents := Path.components_child grounds.target longer
  have isFile := Disk.directoryAt_of_file stands
  have noSibling := Disk.directoryAt_of_none held.sibling
  -- the file stands in the target, so the target is there, and all that its path reaches
  have target : disk.directoryAt (grounds.target.goal disk.current) = true := by
    have parent := grounded.sound.parents (grounds.spot file) (by rw [stands]; simp)
    unfold Grounds.spot at parent
    rwa [List.dropLast_concat, ← current] at parent
  have way := Disk.directories_on_way grounded.sound (held.passable some_) target
  obtain ⟨allowed, allowedSibling⟩ := held.allowed some_
  have receives : disk.Receives again.path := by
    rw [path]
    exact receives_child grounded way plain isFile allowed
  have receivesSibling : disk.Receives again.sibling := by
    rw [siblingPath]
    exact receives_child grounded way longer noSibling allowedSibling
  have beside : again.sibling.components.dropLast = again.path.components.dropLast := by
    rw [siblingPath, path, components, siblingComponents, List.dropLast_concat, List.dropLast_concat]
  obtain ⟨next, ran, calmNext⟩ :=
    Catalog.persist_receives receives receivesSibling grounded.sound calm beside
  have touches := Grounds.touches_persist firm grounded known path ran
  have heldNext := held_persist firm grounded known path ran
  refine ⟨next, ran, ⟨(Grounds.onward_persist firm grounded known path ran).2, calmNext,
    touches.directories, fun location other => ?_⟩, heldNext⟩
  by_cases isSibling : location = grounds.spot (file ++ ".tmp")
  · rw [isSibling, heldNext.sibling, held.sibling]
  · rcases touches.others location (by simp [other, isSibling]) (by simp [isSibling]) with
      same | ⟨made, nothing, _⟩
    · exact same
    · rcases Grounds.way_catalog known path made with onWay | atGoal
      · rw [← current] at onWay
        rw [Disk.directoryAt_iff.1 (way location onWay)] at nothing
        exact absurd nothing (by simp)
      · exact absurd atGoal other

/-- A catalog whose records have a property, and whose file is as it says. -/
structure Entered (grounds : Grounds) (property : Record → Prop) (file : String) (disk : Disk)
    (catalog : Catalog) : Prop where
  path : catalog.path = grounds.target.child file
  sorted : catalog.Sorted
  held : Held grounds file disk catalog
  all : ∀ record ∈ catalog.records, property record

/-- Another catalog is as it was. -/
theorem Entered.renewed {other : String} (entered : Entered grounds property file disk catalog)
    (renewed : Renewed grounds other disk next) (here : disk.current = grounds.current)
    (free : ∀ name ∈ [file, file ++ ".tmp"], name ≠ other) :
    Entered grounds property file next catalog := by
  obtain ⟨holds, sibling, passable, allowed⟩ := entered.held
  obtain ⟨notFile, notSibling⟩ := List.forall_mem_cons.1 free
  refine ⟨entered.path, entered.sorted, ⟨?_, ?_, fun some_ passed member => ?_, allowed⟩,
    entered.all⟩
  · rw [renewed.others _ (spot_ne_spot notFile)]
    exact holds
  · rw [renewed.others _ (spot_ne_spot (notSibling _ List.mem_cons_self))]
    exact sibling
  · rw [renewed.grounded.current, ← here] at member
    exact renewed.directories passed (passable some_ passed member)

/-- Changing a record of a catalog that has it succeeds. -/
theorem Entered.update (firm : grounds.Firm) (grounded : Grounded grounds disk)
    (calm : disk.Calm) (known : file ∈ catalogNames)
    (entered : Entered grounds property file disk catalog) {id : String} {old : Record}
    (found : catalog.find? id = some old) (change : Record → Record)
    (stays : property { change old with id := old.id })
    (exact_ : Record.same { change old with id := old.id } old = true →
      { change old with id := old.id } = old) :
    ∃ record next, catalog.update id change disk = (.ok record, catalog.put record, next) ∧
      Entered grounds property file next (catalog.put record) ∧
      Renewed grounds file disk next := by
  have member := Catalog.mem_of_find? found
  have some_ : catalog.records ≠ [] := List.ne_nil_of_mem member
  have all : ∀ record ∈ (catalog.put { change old with id := old.id }).records,
      property record := by
    intro record among
    rcases Ordered.mem_of_mem_put among with same | before
    · rw [same]
      exact stays
    · exact entered.all record before
  unfold Catalog.update
  rw [found]
  simp only
  by_cases same : Record.same { change old with id := old.id } old = true
  · have equal := exact_ same
    have unchanged : catalog.put { change old with id := old.id } = catalog := by
      rw [equal]
      unfold Catalog.put
      rw [Ordered.put_of_mem entered.sorted member]
    rw [if_pos same]
    refine ⟨_, disk, rfl, ?_, grounded, calm, fun _ here => here, fun _ _ => rfl⟩
    rw [unchanged]
    exact entered
  · have path : (catalog.put { change old with id := old.id }).path = grounds.target.child file :=
      entered.path
    obtain ⟨next, ran, renewed, held⟩ :=
      entered.held.renew firm grounded calm known some_ path
    rw [if_neg same, ran]
    exact ⟨_, next, rfl, ⟨path, Catalog.sorted_put entered.sorted, held, all⟩, renewed⟩

/-! ## Registered files -/

/-- A record whose source, if it has one, is one that a build records. -/
def Sourced (grounds : Grounds) (record : Record) : Prop :=
  ∀ path ∈ record.source, grounds.IsSource record.id path

/-- A file below the sources that may be registered. -/
structure Proper (settings : Settings) (file : Path) : Prop where
  names : ∀ name ∈ file.segments, IsName name
  some_ : file.segments ≠ []
  checked : settings.strictNames = true → checkName file = .ok ()

theorem Proper.local_ {file : Path} (proper : Proper settings file) :
    grounds.Local (grounds.sources.join file) :=
  ⟨file.segments, proper.some_, proper.names, rfl⟩

theorem contains_put {id : String} {record : Record} (known : catalog.contains id = true) :
    (catalog.put record).contains id = true := by
  unfold Catalog.contains at known ⊢
  by_cases same : record.id = id
  · rw [← same, Catalog.find?_put_same]
    rfl
  · rw [Catalog.find?_put_other _ same]
    exact known

/-- What a run over files finds and leaves, whose objects are in the catalogs: beside the
catalog files, the disk is as it was. -/
structure Renewing (grounds : Grounds) (settings : Settings) (files : List Path) (first : Disk)
    (present : Workspace) : Prop where
  grounded : Grounded grounds present.disk
  calm : present.disk.Calm
  foreign : Entered grounds (Sourced grounds) Catalogs.foreignFile present.disk present.foreign
  external : Entered grounds (Exported grounds) Catalogs.externalFile present.disk
    present.external
  others : ∀ location, location ≠ grounds.spot Catalogs.foreignFile →
    (settings.withVersions = true → location ≠ grounds.spot Catalogs.externalFile) →
      present.disk.entryAt? location = first.entryAt? location
  known : ∀ file ∈ files, present.foreign.contains (idOf file) = true ∧
    (settings.withVersions = true → present.external.contains (idOf file) = true)

section Renewing

variable {files : List Path} {first : Disk} {before after : Workspace}

theorem Step.addForeign_yields {id : String} (known : before.foreign.contains id = true) :
    ∃ record, before.foreign.find? id = some record ∧
      (Step.addForeign id).Yields before record before := by
  obtain ⟨record, found⟩ := Option.isSome_iff_exists.1 known
  refine ⟨record, found, Step.yields_addForeign.2 ⟨before.foreign, before.disk, ?_, rfl⟩⟩
  unfold Catalog.add
  rw [found]

theorem Step.addExternal_yields {id : String} (known : before.external.contains id = true) :
    ∃ record, before.external.find? id = some record ∧
      (Step.addExternal id).Yields before record before := by
  obtain ⟨record, found⟩ := Option.isSome_iff_exists.1 known
  refine ⟨record, found, Step.yields_addExternal.2 ⟨before.external, before.disk, ?_, rfl⟩⟩
  unfold Catalog.add
  rw [found]

variable (firm : grounds.Firm) (saving : grounds.saving)

include firm saving

theorem Renewing.updateForeign {file : Path} {old : Record} (proper : Proper settings file)
    (renewing : Renewing grounds settings files first before)
    (found : before.foreign.find? (idOf file) = some old) :
    ∃ record after, (Step.updateForeign (idOf file)
      (asRegistered (grounds.sources.join file))).Yields before record after ∧
        Renewing grounds settings files first after := by
  have isLocal : grounds.Local (grounds.sources.join file) := proper.local_
  have sameId := Catalog.id_of_find? found
  have sourced := renewing.foreign.all old (Catalog.mem_of_find? found)
  have storable : ObjectName.Storable old.id := sameId ▸ storable_idOf proper.names
  obtain ⟨record, next, ran, entered, renewed⟩ := renewing.foreign.update firm
    renewing.grounded renewing.calm List.mem_cons_self found
    (asRegistered (grounds.sources.join file)) (fun path member => Or.inr (Option.some.inj member ▸ isLocal))
    fun same => eq_of_same same (fun agree => source_of_components firm saving storable
      (Or.inr isLocal) sourced agree) (fun _ => rfl) (fun _ => rfl) (fun _ => rfl)
  refine ⟨record, _, Step.yields_updateForeign.2 ⟨_, next, ran, rfl⟩, renewed.grounded,
    renewed.calm, entered, ?_, fun location free apart => ?_, fun other member => ?_⟩
  · exact renewing.external.renewed renewed renewing.grounded.current (by decide)
  · exact (renewed.others location free).trans (renewing.others location free apart)
  · exact ⟨contains_put (renewing.known other member).1, (renewing.known other member).2⟩

omit saving in
theorem Renewing.updateExternal {file : Path} {old : Record} (version : String)
    (versions : settings.withVersions = true) (proper : Proper settings file)
    (renewing : Renewing grounds settings files first before)
    (found : before.external.find? (idOf file) = some old) :
    ∃ record after, (Step.updateExternal (idOf file)
      (asExported (grounds.sources.join file) version)).Yields before record after ∧
        Renewing grounds settings files first after := by
  have isLocal : grounds.Local (grounds.sources.join file) := proper.local_
  have before_ := renewing.external.all old (Catalog.mem_of_find? found)
  have exported : Exported grounds
      { asExported (grounds.sources.join file) version old with id := old.id } :=
    ⟨fun path member => Option.some.inj member ▸ isLocal, before_.xmir, before_.optimized,
      before_.discoveredAt⟩
  obtain ⟨record, next, ran, entered, renewed⟩ := renewing.external.update firm
    renewing.grounded renewing.calm (List.mem_cons_of_mem _ List.mem_cons_self) found _ exported
    fun same => exported.eq_of_same before_ same
  refine ⟨record, _, Step.yields_updateExternal.2 ⟨_, next, ran, rfl⟩, renewed.grounded,
    renewed.calm, ?_, entered, fun location free apart => ?_, fun other member => ?_⟩
  · exact renewing.foreign.renewed renewed renewing.grounded.current (by decide)
  · exact (renewed.others location (apart versions)).trans (renewing.others location free apart)
  · exact ⟨(renewing.known other member).1,
      fun _ => contains_put ((renewing.known other member).2 versions)⟩

theorem Renewing.registerFile (sources : settings.sources = grounds.sources) {file : Path}
    (proper : Proper settings file) (renewing : Renewing grounds settings files first before)
    (member : file ∈ files) :
    ∃ after, (registerFile settings file).Yields before () after ∧
      Renewing grounds settings files first after := by
  obtain ⟨_, found, added⟩ := Step.addForeign_yields (renewing.known file member).1
  obtain ⟨_, between, updated, renewed⟩ := renewing.updateForeign firm saving proper found
  have exports : ∃ after, (if settings.withVersions then do
        let _ ← Step.addExternal (idOf file)
        let _ ← Step.updateExternal (idOf file)
          (asExported (grounds.sources.join file) settings.project.version)
      else pure () : Step Unit).Yields between () after ∧
        Renewing grounds settings files first after := by
    by_cases versions : settings.withVersions = true
    · obtain ⟨_, foundOut, addedOut⟩ :=
        Step.addExternal_yields ((renewed.known file member).2 versions)
      obtain ⟨_, after, updatedOut, renewedOut⟩ :=
        renewed.updateExternal firm settings.project.version versions proper foundOut
      refine ⟨after, ?_, renewedOut⟩
      rw [if_pos versions]
      exact Step.yields_bind.2 ⟨_, _, addedOut, Step.yields_bind.2 ⟨_, _, updatedOut,
        Step.yields_pure.2 ⟨rfl, rfl⟩⟩⟩
    · refine ⟨between, ?_, renewed⟩
      rw [if_neg versions]
      exact Step.yields_pure.2 ⟨rfl, rfl⟩
  obtain ⟨after, ranRest, last⟩ := exports
  refine ⟨after, ?_, last⟩
  have registered : Step.Yields (do
      let _ ← Step.addForeign (idOf file)
      let _ ← Step.updateForeign (idOf file) (asRegistered (grounds.sources.join file))
      if settings.withVersions then
        let _ ← Step.addExternal (idOf file)
        let _ ← Step.updateExternal (idOf file)
          (asExported (grounds.sources.join file) settings.project.version)) before () after :=
    Step.yields_bind.2 ⟨_, _, added, Step.yields_bind.2 ⟨_, _, updated, ranRest⟩⟩
  unfold Build.registerFile
  rw [sources]
  by_cases strict : settings.strictNames = true
  · rw [if_pos strict]
    exact Step.yields_bind.2 ⟨(), before, Step.yields_ofOutcome.2 ⟨proper.checked strict, rfl⟩,
      registered⟩
  · rw [if_neg strict]
    exact registered

/-- Files whose objects are in the catalogs can be registered again. -/
theorem Renewing.registerFiles (sources : settings.sources = grounds.sources)
    {rest : List Path} (among : ∀ file ∈ rest, file ∈ files ∧ Proper settings file)
    (renewing : Renewing grounds settings files first before) :
    ∃ after, (registerFiles settings rest).Yields before () after ∧
      Renewing grounds settings files first after := by
  induction rest generalizing before with
  | nil => exact ⟨before, Step.yields_pure.2 ⟨rfl, rfl⟩, renewing⟩
  | cons file others inductionHypothesis =>
    obtain ⟨member, proper⟩ := among file List.mem_cons_self
    obtain ⟨between, ranFile, renewed⟩ :=
      renewing.registerFile firm saving sources proper member
    obtain ⟨after, ranRest, last⟩ := inductionHypothesis
      (fun other inside => among other (List.mem_cons_of_mem _ inside)) renewed
    exact ⟨after, Step.yields_bind.2 ⟨(), between, ranFile, ranRest⟩, last⟩

end Renewing

end Build

end EoAssembly
