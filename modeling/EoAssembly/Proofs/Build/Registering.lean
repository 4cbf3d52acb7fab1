import EoAssembly.Proofs.Build.Levels
import EoAssembly.Proofs.Build.Names

/-!
Contract: registering takes a build to its first level.

Registering writes nothing but catalog files.  At its end every object of a file
has a record with its source, and nothing else was done.

Owns `Project`, what a build that starts afresh rests on, and the level that
registering reaches.
-/

namespace EoAssembly.Build

open ObjectName (Placeable)

/-- Nothing stands below a location. -/
def NothingBelow (disk : Disk) (location : Location) : Prop :=
  ∀ other, location <+: other → other ≠ location → disk.entryAt? other = none

theorem nothingBelow_of_entries {disk : Disk} {location : Location} (notRoot : location ≠ [])
    (free : ∀ item ∈ disk.entries, location <+: item.1 → item.1 = location) :
    NothingBelow disk location := by
  intro other below different
  have some_ : other ≠ [] := by
    intro root
    rw [root] at below
    exact notRoot (List.prefix_nil.1 below)
  unfold Disk.entryAt?
  rw [if_neg some_, List.lookup_eq_none_iff]
  intro item member
  rw [bne_iff_ne]
  intro same
  rw [same] at below different
  exact different (free item member below)

/-- A project that was never built: with strict names, sources that are kept, a store that
is a function of the name, directories and places that are apart, and nothing in its target
and its protocols. -/
structure Project (settings : Settings) (remote : Remote) (start : Disk) : Prop where
  sound : start.Sound
  named : start.WellNamed
  written : settings.target.IsText
  strict : settings.strictNames = true
  keeps : settings.overwrite = false
  store : ∃ store, remote.fetch = Remote.fetchOf store
  separate : Separate settings start.current
  apart : PlacesApart settings remote start
  freshTarget : NothingBelow start (settings.target.goal start.current)
  freshProtocols : NothingBelow start (settings.protocols.goal start.current)
  registers : registeredFiles settings start ≠ []

variable {settings : Settings} {remote : Remote} {start before after : Workspace} {id : String}

/-- An object that no file registers is a foreign name of a document. -/
theorem segments_of_needed {disk : Disk} {extension : String}
    (needed : IsNeeded settings remote disk id) (foreign : id ∉ registeredIds settings disk) :
    ObjectName.segments extension id ≠ [] := by
  obtain ⟨count, reaches⟩ := needed
  cases reaches with
  | root member => exact absurd member foreign
  | refers before member =>
    unfold references at member
    split at member
    · exact absurd member (by simp)
    · split at member
      · next names reads =>
        unfold namesOfText at reads
        cases read : Document.ofText _ _ with
        | error failure =>
          rw [read] at reads
          exact absurd reads (by simp [Except.map])
        | ok document =>
          rw [read] at reads
          rw [← Except.ok.inj reads] at member
          exact Document.segments_foreignNames member
      · exact absurd member (by simp)

/-! ## Catalog files -/

/-- A workspace where a build wrote nothing but catalog files. -/
structure Ready (settings : Settings) (remote : Remote) (start present : Workspace) : Prop where
  sorted : present.foreign.Sorted
  path : present.foreign.path = catalogPath settings.target
  external : present.external.path = settings.target.child Catalogs.externalFile
  shelved : Shelved settings remote start.disk [settings.sources] (fun _ _ => none) present.disk
  passable : present.foreign.records ≠ [] → present.disk.Passable settings.target
  journal : present.journal = start.journal

theorem isName_external : Path.IsName Catalogs.externalFile := by decide

theorem isName_externalSibling : Path.IsName (Catalogs.externalFile ++ ".tmp") := by
  decide

theorem noShelf_external (shelf : Shelf) : shelf.name? ≠ some Catalogs.externalFile ∧
    shelf.name? ≠ some (Catalogs.externalFile ++ ".tmp") := by
  cases shelf <;> decide

section Ready

variable (project : Project settings remote start.disk)

include project

theorem Ready.foreign {catalog : Catalog} {disk : Disk} (ready : Ready settings remote start before)
    (sorted : catalog.Sorted) (path : catalog.path = before.foreign.path)
    (ran : catalog.persist before.disk = (.ok (), disk)) :
    Ready settings remote start { before with foreign := catalog, disk := disk } := by
  have isPath := path.trans ready.path
  obtain ⟨shelved, passable⟩ := ready.shelved.persist project.separate project.written isPath
    isName_foreign isName_sibling noShelf_foreign ran
  exact ⟨sorted, isPath, ready.external, shelved, fun _ => passable_catalogPath.1 passable,
    ready.journal⟩

theorem Ready.externals {catalog : Catalog} {disk : Disk}
    (ready : Ready settings remote start before) (path : catalog.path = before.external.path)
    (ran : catalog.persist before.disk = (.ok (), disk)) :
    Ready settings remote start { before with external := catalog, disk := disk } := by
  have isPath := path.trans ready.external
  obtain ⟨shelved, _⟩ := ready.shelved.persist project.separate project.written isPath
    isName_external isName_externalSibling noShelf_external ran
  refine ⟨ready.sorted, ready.path, isPath, shelved, fun some_ => ?_, ready.journal⟩
  obtain ⟨_, touches⟩ := Catalog.persist_ok ready.shelved.sound ran
  exact touches.passable (ready.passable some_)

theorem Ready.addForeign : (Step.addForeign id).Keeps (Ready settings remote start) := by
  intro before record after ready ran
  obtain ⟨catalog, disk, added, result⟩ := Step.yields_addForeign.1 ran
  rw [result]
  rcases Catalog.add_ok added with ⟨_, same, sameDisk⟩ | ⟨_, _, same, persisted⟩
  · rw [same, sameDisk]
    exact ready
  · refine ready.foreign project ?_ ?_ persisted
    · rw [same]
      exact Catalog.sorted_put ready.sorted
    · rw [same, Catalog.path_put]

theorem Ready.updateForeign {change : Record → Record} :
    (Step.updateForeign id change).Keeps (Ready settings remote start) := by
  intro before record after ready ran
  obtain ⟨catalog, disk, updated, result⟩ := Step.yields_updateForeign.1 ran
  obtain ⟨_, found, _, _, same, rest⟩ := Catalog.update_ok updated
  have sorted : catalog.Sorted := by
    rw [same]
    exact Catalog.sorted_put ready.sorted
  have path : catalog.path = before.foreign.path := by rw [same, Catalog.path_put]
  rw [result]
  rcases rest with sameDisk | persisted
  · rw [sameDisk]
    exact ⟨sorted, path.trans ready.path, ready.external, ready.shelved,
      fun _ => ready.passable (records_of_find? found), ready.journal⟩
  · exact ready.foreign project sorted path persisted

theorem Ready.addExternal : (Step.addExternal id).Keeps (Ready settings remote start) := by
  intro before record after ready ran
  obtain ⟨catalog, disk, added, result⟩ := Step.yields_addExternal.1 ran
  rw [result]
  rcases Catalog.add_ok added with ⟨_, same, sameDisk⟩ | ⟨_, _, same, persisted⟩
  · rw [same, sameDisk]
    exact ready
  · exact ready.externals project (by rw [same, Catalog.path_put]) persisted

theorem Ready.updateExternal {change : Record → Record} :
    (Step.updateExternal id change).Keeps (Ready settings remote start) := by
  intro before record after ready ran
  obtain ⟨catalog, disk, updated, result⟩ := Step.yields_updateExternal.1 ran
  obtain ⟨_, _, _, _, same, rest⟩ := Catalog.update_ok updated
  have path : catalog.path = before.external.path := by rw [same, Catalog.path_put]
  rw [result]
  rcases rest with sameDisk | persisted
  · rw [sameDisk]
    exact ⟨ready.sorted, ready.path, path.trans ready.external, ready.shelved, ready.passable,
      ready.journal⟩
  · exact ready.externals project path persisted

end Ready

/-! ## Records -/

/-- No stage has worked on an object. -/
def Fresh (record : Record) : Prop :=
  record.pulled = false ∧ record.xmir = none ∧ record.optimized = none ∧ record.discovered = none

/-- A catalog of the objects of files, each with its last file as source. -/
structure Registered (settings : Settings) (done : List Path) (catalog : Catalog) : Prop where
  known : ∀ id, (∃ record, catalog.find? id = some record) ↔ id ∈ done.map idOf
  describes : ∀ id record, catalog.find? id = some record → ∃ file, lastNamed done id = some file ∧
    record.source = some (settings.sources.join file) ∧ Fresh record

theorem Registered.register {done : List Path} {file : Path} {catalog next : Catalog}
    {record : Record} (registered : Registered settings done catalog)
    (found : next.find? (idOf file) = some record)
    (source : record.source = some (settings.sources.join file)) (untouched : Fresh record)
    (others : ∀ id, id ≠ idOf file → next.find? id = catalog.find? id) :
    Registered settings (done ++ [file]) next where
  known id := by
    rw [List.map_append, List.mem_append, List.map_singleton, List.mem_singleton]
    by_cases same : id = idOf file
    · rw [same]
      exact iff_of_true ⟨record, found⟩ (Or.inr rfl)
    · rw [others id same, or_iff_left same]
      exact registered.known id
  describes id other foundOther := by
    rw [lastNamed_concat]
    by_cases same : id = idOf file
    · rw [same, found] at foundOther
      rw [if_pos same.symm, ← Option.some.inj foundOther]
      exact ⟨file, rfl, source, untouched⟩
    · rw [others id same] at foundOther
      rw [if_neg (Ne.symm same)]
      exact registered.describes id other foundOther

theorem registerFile_effect {done : List Path} {file : Path}
    (project : Project settings remote start.disk) (ready : Ready settings remote start before)
    (registered : Registered settings done before.foreign)
    (ran : (registerFile settings file).Yields before () after) :
    checkName file = .ok () ∧ Ready settings remote start after ∧
      Registered settings (done ++ [file]) after.foreign := by
  obtain ⟨checks, _, added, record, between, ranAdd, ranUpdate, rest⟩ := yields_registerFile.1 ran
  have strict := checks project.strict
  have readyAdded := Ready.addForeign project _ _ _ ready ranAdd
  have readyBetween := Ready.updateForeign project _ _ _ readyAdded ranUpdate
  have recorded : Registered settings (done ++ [file]) between.foreign := by
    obtain ⟨old, foundOld, changed, sameId, same⟩ := updateForeign_catalog ranUpdate
    have fresh : Fresh old ∧
        ∀ id, id ≠ idOf file → added.foreign.find? id = before.foreign.find? id := by
      rcases addForeign_catalog ranAdd with ⟨_, isBefore⟩ | ⟨_, isPut⟩
      · rw [isBefore] at foundOld ⊢
        obtain ⟨_, _, _, untouched⟩ := registered.describes _ old foundOld
        exact ⟨untouched, fun _ _ => rfl⟩
      · rw [isPut] at foundOld ⊢
        have isFresh := Catalog.find?_put_same before.foreign (.ofId (idOf file))
        have foundHere : (before.foreign.put (.ofId (idOf file))).find? (idOf file) = some old :=
          foundOld
        have isOld : some (Record.ofId (idOf file)) = some old := isFresh.symm.trans foundHere
        refine ⟨?_, fun id different => Catalog.find?_put_other _ (Ne.symm different)⟩
        rw [← Option.some.inj isOld]
        exact ⟨rfl, rfl, rfl, rfl⟩
    refine registered.register (updateForeign_find? ranUpdate) ?_ ?_ fun id different => ?_
    · rw [changed]
      rfl
    · rw [changed]
      exact fresh.1
    · rw [same, Catalog.find?_put_other _ (by rw [sameId]; exact Ne.symm different)]
      exact fresh.2 id different
  rcases rest with ⟨_, _, external, _, ranExternal, ranExported⟩ | ⟨_, rfl⟩
  · have readyExternal := Ready.addExternal project _ _ _ readyBetween ranExternal
    refine ⟨strict, Ready.updateExternal project _ _ _ readyExternal ranExported, ?_⟩
    obtain ⟨_, _, _, resultAdd⟩ := Step.yields_addExternal.1 ranExternal
    obtain ⟨_, _, _, resultUpdate⟩ := Step.yields_updateExternal.1 ranExported
    rw [resultUpdate, resultAdd]
    exact recorded
  · exact ⟨strict, readyBetween, recorded⟩

theorem registerFiles_effect {done files : List Path}
    (project : Project settings remote start.disk) (ready : Ready settings remote start before)
    (registered : Registered settings done before.foreign)
    (ran : (registerFiles settings files).Yields before () after) :
    (∀ file ∈ files, checkName file = .ok ()) ∧ Ready settings remote start after ∧
      Registered settings (done ++ files) after.foreign := by
  induction files generalizing before done with
  | nil =>
    rw [List.append_nil, ← (Step.yields_pure.1 ran).2]
    exact ⟨by simp, ready, registered⟩
  | cons file rest inductionHypothesis =>
    obtain ⟨_, between, ranFirst, ranRest⟩ := Step.yields_bind.1 ran
    obtain ⟨strict, readyFirst, one⟩ := registerFile_effect project ready registered ranFirst
    obtain ⟨strictRest, readyRest, all⟩ := inductionHypothesis readyFirst one ranRest
    rw [List.append_assoc] at all
    refine ⟨fun other member => ?_, readyRest, all⟩
    rcases List.mem_cons.1 member with here | later
    · rw [here]
      exact strict
    · exact strictRest other later

/-! ## The first level -/

/-- Before anything is done, nothing stands at the places of objects. -/
theorem Project.shelved (project : Project settings remote start.disk) :
    Shelved settings remote start.disk [settings.sources] (fun _ _ => none) start.disk where
  sound := project.sound
  current := rfl
  sources _ _ := rfl
  passable path member := by
    obtain ⟨file, registered⟩ := List.exists_mem_of_ne_nil _ project.registers
    rw [List.mem_singleton.1 member]
    exact (registeredFiles_names project.named registered).2
  stands shelf id on placeable := by
    have inTarget : ∀ {name}, shelf.name? = some name →
        start.disk.entryAt? ((shelf.file settings id).goal start.disk.current) = none := by
      intro name named
      rw [shelf.goal_file placeable, Path.goal_of_names _ (shelf.components_of_name named),
        List.append_assoc]
      refine project.freshTarget _ (List.prefix_append _ _) fun same => ?_
      rw [List.append_right_eq_self] at same
      exact absurd same (by simp)
    cases shelf with
    | parsed => exact inTarget rfl
    | optimized => exact inTarget rfl
    | pulled => exact inTarget rfl
    | logs =>
      rw [Shelf.goal_file placeable]
      exact project.freshProtocols _ (List.prefix_append _ _) fun same =>
        segments_of_needed on.1 on.2 (List.append_right_eq_self.1 same)
    | sources => exact on.elim

/-- A catalog of a fresh target holds no records. -/
theorem openAt_fresh {target : Path} {disk : Disk} {file : String} {catalog : Catalog}
    (fresh : NothingBelow disk (target.goal disk.current)) (plain : Path.IsName file)
    (opened : Catalog.openAt disk (target.child file) = .ok catalog) :
    catalog = ⟨target.child file, []⟩ := by
  have behind : (target.child file).components =
      target.components ++ [file].map Path.Component.named := Path.components_child target plain
  have goal := Path.goal_of_names disk.current behind
  have missing : disk.exists? (target.child file) = false := by
    rw [Bool.eq_false_iff]
    intro there
    obtain ⟨entry, found⟩ := Disk.exists?_iff.1 there
    have stands := (Disk.entry_eq_some found).2.2
    rw [goal, fresh _ (List.prefix_append _ _) (by simp)] at stands
    exact absurd stands (by simp)
  rw [Catalog.openAt_missing missing] at opened
  exact (Except.ok.inj opened).symm

theorem Project.scene (project : Project settings remote start.disk)
    (strict : ∀ file ∈ registeredFiles settings start.disk, checkName file = .ok ()) :
    Scene settings remote start.disk where
  separate := project.separate
  apart := project.apart
  written := project.written
  reaches := project.shelved.passable _ (List.mem_singleton_self _)
  named file member := by
    have names := (registeredFiles_names project.named member).1
    exact ⟨(placeable_of_file names (strict file member)).1, fun name inside =>
      (names name inside).names⟩
  keeps := project.keeps
  store name disk := by
    obtain ⟨store, same⟩ := project.store
    rw [same]
    rfl

/-- A build of a fresh project starts without records. -/
theorem Project.reopen {opened : Workspace} (project : Project settings remote start.disk)
    (ran : (Workspace.reopen settings.target).Yields start () opened) :
    opened = { start with
      foreign := ⟨catalogPath settings.target, []⟩
      external := ⟨settings.target.child Catalogs.externalFile, []⟩ } := by
  obtain ⟨foreign, external, result, openedForeign, openedExternal⟩ := yields_reopen.1 ran
  rw [result, openAt_fresh project.freshTarget isName_foreign openedForeign,
    openAt_fresh project.freshTarget isName_external openedExternal]
  rfl

/-- Registering ends at the first level: the objects of files have a source, and nothing
else is done. -/
theorem Project.register {opened : Workspace} {count : Nat}
    (project : Project settings remote start.disk)
    (ranOpen : (Workspace.reopen settings.target).Yields start () opened)
    (ran : (register settings).Yields opened count after) :
    Scene settings remote start.disk ∧ count = (registeredFiles settings start.disk).length ∧
      Progress settings remote start (frontAt settings remote start.disk 0) [] after := by
  have isOpened := project.reopen ranOpen
  obtain ⟨_, _, _, rfl, ranFiles⟩ := yields_register.1 ran
  have files : registeredFiles settings opened.disk = registeredFiles settings start.disk := by
    rw [isOpened]
  rw [files] at ranFiles ⊢
  have readyOpened : Ready settings remote start opened := by
    rw [isOpened]
    exact ⟨List.Pairwise.nil, rfl, rfl, project.shelved, fun none => absurd rfl none, rfl⟩
  have nothing : Registered settings [] opened.foreign := by
    rw [isOpened]
    exact ⟨fun id => iff_of_false (by simp [Catalog.find?, Ordered.find?]) (by simp),
      fun id record found => absurd found (by simp [Catalog.find?, Ordered.find?])⟩
  obtain ⟨strict, ready, registered⟩ := registerFiles_effect project readyOpened nothing ranFiles
  rw [List.nil_append] at registered
  have scene := project.scene strict
  refine ⟨scene, rfl, ⟨ready.sorted, ready.path, fun id => ?_, fun id => ?_, ?_⟩, ?_, ?_,
    fun id known => known.needed, fun id sourced => ?_, fun id discovered => discovered.elim,
    fun id member => within_zero.2 member⟩
  · exact (registered.known id).trans within_zero.symm
  · exact ⟨fun here => here, fun here => here.2, fun here => here.elim, fun here => here.elim,
      fun here => here.elim⟩
  · intro id record found
    obtain ⟨file, isLast, source, notPulled, unparsed, unoptimized, undiscovered⟩ :=
      registered.describes id record found
    have isFile : fileOf? settings start.disk id = some file := isLast
    refine ⟨fun other isOther => ?_, fun none => ?_, fun unsourced => ?_, fun wrong => ?_,
      fun _ => unparsed, fun wrong => wrong.elim, fun _ => unoptimized, ?_⟩
    · rw [isFile] at isOther
      rw [← Option.some.inj isOther]
      exact ⟨source, notPulled⟩
    · rw [isFile] at none
      exact absurd none (by simp)
    · exact absurd (within_zero.2 ((registered.known id).1 ⟨record, found⟩)) unsourced
    · exact absurd wrong.1 (Nat.lt_irrefl 0)
    · exact iff_of_false (fun wrong => wrong.elim) (by simp [undiscovered])
  · have some_ : after.foreign.records ≠ [] := by
      obtain ⟨file, member⟩ := List.exists_mem_of_ne_nil _ project.registers
      obtain ⟨record, found⟩ := (registered.known (idOf file)).2 (List.mem_map_of_mem member)
      exact records_of_find? found
    refine ⟨fun _ _ => none, ready.shelved.reach (ready.passable some_), ?_, fun _ _ _ => rfl⟩
    intro shelf id on stands
    cases shelf with
    | parsed => exact absurd stands.1 (Nat.lt_irrefl 0)
    | optimized => exact stands.elim
    | pulled => exact absurd (within_zero.1 stands) on.2
    | logs => exact absurd (within_zero.1 stands) on.2
    | sources => exact stands.elim
  · refine ⟨?_, List.nodup_nil, fun id => ?_⟩
    · rw [ready.journal, List.append_nil]
    · exact iff_of_false (by simp) fun here => here.2 (within_zero.1 here.1)
  · obtain ⟨file, member, same⟩ := List.mem_map.1 (within_zero.1 sourced)
    rw [← same]
    exact (placeable_of_file (registeredFiles_names project.named member).1
      (strict file member)).2

end EoAssembly.Build
