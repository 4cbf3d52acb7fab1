import EoAssembly.Proofs.Build.Listing
import EoAssembly.Proofs.Build.Renewing
import EoAssembly.Proofs.Build.Resting

/-!
Contract: a build that succeeded and is run again.

The catalogs open as they were left.  Registering finds the same files, whose objects keep
their records, and the first cycle finds nothing to do: it asks for the table of tags at most.
So the second build leaves both catalogs and every file as they were, whatever the store and
the parser would answer.

Owns `Unbuilt`, what a build of an unbuilt project ends with, and that the next one repeats it.
-/

namespace EoAssembly

namespace Build

variable {settings : Settings} {remote : Remote} {before between after : Workspace}
  {grounds : Grounds} {tags : Except Failure String} {disk : Disk} {catalog : Catalog}

/-! ## The end of a build -/

/-- Cycles keep what depends neither on the disk, nor on the records, nor on what was asked for,
when loading the table does. -/
theorem supply_framed {holds : Workspace → Prop}
    (framed : ∀ present disk foreign journal, holds present →
      holds { present with disk := disk, foreign := foreign, journal := journal })
    (table : (Step.table remote).Keeps holds) :
    Supply settings remote (fun _ => True) holds where
  add id := by
    intro before record after here ran
    obtain ⟨catalog, disk, _, result⟩ := Step.yields_addForeign.1 ran
    exact result ▸ framed before disk catalog before.journal here
  update id change _ := by
    intro before record after here ran
    obtain ⟨catalog, disk, _, result⟩ := Step.yields_updateForeign.1 ran
    exact result ▸ framed before disk catalog before.journal here
  write path text := by
    intro before value after here ran
    obtain ⟨disk, _, result⟩ := Step.yields_write.1 ran
    exact result ▸ framed before disk before.foreign before.journal here
  parse name text := by
    intro before value after here ran
    obtain ⟨_, result⟩ := Step.yields_parse.1 ran
    exact result ▸ framed before before.disk before.foreign _ here
  pulled name version hash _ := by
    intro before record after here ran
    obtain ⟨catalog, disk, _, result⟩ := Step.yields_updateForeign.1 ran
    exact result ▸ framed before disk catalog before.journal here
  fetch name _ := by
    intro before value after here ran
    obtain ⟨disk, _, result⟩ := Step.yields_fetch.1 ran
    exact result ▸ framed before disk before.foreign _ here
  table := table
  leaves _ _ _ _ := trivial

theorem supply_agrees (constant : ∀ disk, remote.table disk = tags) :
    Supply settings remote (fun _ => True) fun present => Agrees tags present.slot none :=
  supply_framed (fun _ _ _ _ agrees => agrees) fun _ _ _ agrees ran =>
    ⟨(table_agrees constant agrees ran).2.slot, by simp⟩

/-- Cycles leave the catalog of exported objects alone. -/
theorem supply_external (settings : Settings) (remote : Remote) (exported : Catalog) :
    Supply settings remote (fun _ => True) fun present => present.external = exported := by
  refine supply_framed (fun _ _ _ _ same => same) fun before table after same ran => ?_
  obtain ⟨_, _, result, _⟩ := Step.table_frame ran
  rw [result]
  exact same

/-- A build ends where every stage of a cycle leaves everything alone. -/
theorem settled_end (firm : grounds.Firm) (saving : grounds.saving) (suits : grounds.Suits settings)
    (store : remote.KeepsTo grounds.own) (named : remote.KeepsNames)
    (constant : ∀ disk, remote.table disk = tags) (keeps : settings.overwrite = false)
    (holds : grounds.regime.holds before) (agrees : Agrees tags before.slot none) {bound : Nat}
    {answer : Nat × Nat} (ran : (settle settings remote bound).Yields before answer after) :
    Settled settings tags after.disk after.foreign := by
  have cycles : (cycle settings remote).Keeps fun present =>
      grounds.regime.holds present ∧ Agrees tags present.slot none :=
    fun first value second here ranCycle =>
      ⟨((governs_cycle firm suits store named first here.1 trivial).1 value second ranCycle).1,
        (supply_agrees constant).cycle first value second here.2 ranCycle⟩
  obtain ⟨last, fetched, ⟨holdsLast, agreesLast⟩, ranCycle, same⟩ :=
    settle_end cycles ⟨holds, agrees⟩ ran
  obtain ⟨finished, ranPull⟩ := cycle_idle holdsLast.1.foreign.sorted same ranCycle
  have ranEach := yields_pullAll.1 ranPull
  have placed : ∀ name record, last.foreign.find? name = some record → record.pulled = true →
      last.disk.exists? (pulledPlace settings.target name) = true ∧
        isRecorded last.foreign name (pulledPlace settings.target name) = true := by
    intro name record found pulled
    have borne := holdsLast.1.foreign.found found
    have place := (borne.place pulled).2.2
    have source := borne.kept saving pulled
    rw [Catalog.id_of_find? found, ← suits.target] at place source
    exact ⟨place, isRecorded_of_pulled found pulled source⟩
  have back : ∀ name, Described name (fun record => record.pulled = true) after →
      Described name (fun record => record.pulled = true) last := by
    rintro name ⟨record, found, pulled⟩
    obtain ⟨twin, foundTwin, agrees⟩ := Catalog.canonicalRecord_same same.symm found
    have marks := congrArg Record.pulled agrees
    exact ⟨twin, foundTwin, marks.trans pulled⟩
  obtain ⟨rested, _, _, skipped⟩ := pullEach_rested constant keeps agreesLast placed back ranEach
  rw [rested.disk, rested.foreign]
  exact ⟨finished, skipped⟩

/-- An object of a file keeps the source it was registered with, and a status. -/
theorem registered_stays {files : List Path} {file : Path} {id : String} {bound : Nat}
    {answer : Nat × Nat} (enlisted : Enlisted settings files before between)
    (unpulled : ∀ record, before.foreign.find? id = some record → record.pulled = false)
    (isLast : lastNamed files id = some file)
    (ran : (settle settings remote bound).Yields between answer after) :
    ∃ record, after.foreign.find? id = some record ∧
      asRegistered (settings.sources.join file) record = record := by
  have found : between.foreign.find? id =
      some (asRegistered (settings.sources.join file) (recordOf before.foreign id)) := by
    rw [enlisted.foreign id, isLast]
    rfl
  have notPulled : (recordOf before.foreign id).pulled = false := by
    unfold recordOf
    cases foundBefore : before.foreign.find? id with
    | none => rfl
    | some record => exact unpulled record foundBefore
  have homemade : Homemade id (settings.sources.join file) between.journal between :=
    ⟨⟨_, found, rfl, notPulled⟩, [], (List.append_nil _).symm, List.not_mem_nil⟩
  obtain ⟨record, foundLast, isSource, _⟩ :=
    ((supply_homemade settings remote _ _ _).settle _ between _ after homemade ran).record
  have named : Described id (fun record => record.status.isSome = true) between :=
    ⟨_, found, rfl⟩
  have supply : Supply settings remote (fun _ => True)
      (Described id fun record => record.status.isSome = true) :=
    supply_described (fun change made record here => by cases made <;> first | rfl | exact here)
      fun _ _ _ _ => rfl
  obtain ⟨twin, foundTwin, isSome⟩ := supply.settle _ between _ after named ran
  rw [foundLast] at foundTwin
  obtain ⟨status, isStatus⟩ := Option.isSome_iff_exists.1 isSome
  rw [← Option.some.inj foundTwin] at isStatus
  refine ⟨record, foundLast, ?_⟩
  unfold asRegistered
  rw [isStatus, ← isSource, Option.getD_some, ← isStatus]

/-- A catalog that is as its file says opens as it is. -/
theorem Held.opens {file : String} (held : Held grounds file disk catalog)
    (here : disk.current = grounds.current) (known : file ∈ catalogNames)
    (path : catalog.path = grounds.target.child file) (sorted : catalog.Sorted)
    (textual : ∀ record ∈ catalog.records, record.Textual)
    (countable : ∀ record ∈ catalog.records, record.Countable) :
    Catalog.openAt disk (grounds.target.child file) = .ok catalog := by
  have goal := Grounds.goal_catalog known path
  have plain := (catalogNames_plain file known).1
  have components : (grounds.target.child file).components =
      grounds.target.components ++ [file].map Path.Component.named :=
    Path.components_child grounds.target plain
  have isEmpty : disk.exists? catalog.path = false → catalog.records = [] := by
    intro missing
    by_contra some_
    have stands := held.holds.resolve_right fun empty => some_ empty.1
    have passable : disk.Passable catalog.path := by
      rw [path, Disk.passable_of_names components]
      exact held.passable some_
    have ends : catalog.path.EndsInName := by
      rw [path]
      exact Path.endsInName_child grounds.target plain
    rw [Disk.not_exists?_iff, Disk.entry_of_name ends passable, here, goal, stands] at missing
    exact absurd missing (by simp)
  rw [← path]
  cases there : disk.exists? catalog.path with
  | false =>
    rw [Catalog.openAt_missing there, ← isEmpty there]
  | true =>
    obtain ⟨entry, stands⟩ := Disk.exists?_iff.1 there
    have atGoal := (Disk.entry_eq_some stands).2.2
    rw [here, goal] at atGoal
    have holds := held.holds.resolve_right fun empty => by
      rw [empty.2] at atGoal
      exact absurd atGoal (by simp)
    rw [holds] at atGoal
    rw [← Option.some.inj atGoal] at stands
    exact Catalog.openAt_stands sorted textual countable stands

/-- What leads onward leaves the directory of the sources. -/
theorem Grounds.Onward.isDirectory_sources {first second : Disk} (firm : grounds.Firm)
    (saving : grounds.saving) (onward : grounds.Onward first second)
    (here : first.current = grounds.current) (there : second.current = grounds.current)
    (isDirectory : first.isDirectory grounds.sources = true) :
    second.isDirectory grounds.sources = true := by
  have safe : grounds.Safe grounds.sources := by
    refine ⟨fun member => ?_, fun owned => (firm.ownSources _ owned).1 List.prefix_rfl,
      fun passed member owned => (firm.ownSources passed owned).2 member⟩
    obtain ⟨file, _, same⟩ := List.mem_map.1 member
    exact outside_sources firm saving (Or.inr (List.prefix_append _ [file])) (same ▸ List.prefix_rfl)
  have stands := beq_iff_eq.1 isDirectory
  obtain ⟨_, _, atGoal⟩ := Disk.entry_eq_some stands
  have still : second.exists? grounds.sources = true := by
    exact onward.stands _ safe (Disk.exists?_iff.2 ⟨_, stands⟩)
  obtain ⟨entry, standsSecond⟩ := Disk.exists?_iff.1 still
  have atGoalSecond := (Disk.entry_eq_some standsSecond).2.2
  rw [there, onward.sources saving _ List.prefix_rfl, ← here, atGoal] at atGoalSecond
  unfold Disk.isDirectory
  rw [standsSecond, ← Option.some.inj atGoalSecond]
  rfl

/-! ## Built projects -/

/-- A project that was built: its files are the objects that they were registered as, and a
cycle leaves everything alone. -/
structure Built (grounds : Grounds) (settings : Settings) (tags : Except Failure String)
    (present : Workspace) : Prop where
  holds : grounds.regime.holds present
  settled : Settled settings tags present.disk present.foreign
  sources : present.disk.isDirectory settings.sources = true
  included : ∃ included, Settings.patterns settings.included = .ok included
  excluded : ∃ excluded, Settings.patterns settings.excluded = .ok excluded
  proper : ∀ file ∈ registeredFiles settings present.disk, Proper settings file
  foreign : ∀ id file, lastNamed (registeredFiles settings present.disk) id = some file →
    ∃ record, present.foreign.find? id = some record ∧
      asRegistered (settings.sources.join file) record = record
  external : settings.withVersions = true → ∀ id file,
    lastNamed (registeredFiles settings present.disk) id = some file →
      ∃ record, present.external.find? id = some record ∧
        asExported (settings.sources.join file) settings.project.version record = record
  uncounted : ∀ record ∈ present.external.records, record.discovered = none
  bound : settings.maxCycles ≠ 0

theorem Grounded.calmed (grounded : Grounded grounds disk) : Grounded grounds disk.calmed :=
  ⟨⟨grounded.sound.current, grounded.sound.parents⟩, grounded.named, grounded.current⟩

theorem Held.calmed {file : String} (held : Held grounds file disk catalog) :
    Held grounds file disk.calmed catalog :=
  ⟨held.holds, held.sibling, held.passable, held.allowed⟩

theorem registeredFiles_calmed (settings : Settings) (disk : Disk) :
    registeredFiles settings disk.calmed = registeredFiles settings disk := by
  refine registeredFiles_congr ?_
  unfold filesIn
  rw [Disk.resolve?_calmed]
  rfl

/-- A change that leaves the record of every file as it is leaves all records. -/
theorem Noted.absorbed {change : Path → Record → Record} {files : List Path} {first second : Catalog}
    (noted : Noted change files first second)
    (done : ∀ id file, lastNamed files id = some file →
      ∃ record, first.find? id = some record ∧ change file record = record) :
    ∀ id, second.find? id = first.find? id := by
  intro id
  rw [noted id]
  cases isLast : lastNamed files id with
  | none => rfl
  | some file =>
    obtain ⟨record, found, same⟩ := done id file isLast
    show some (change file (recordOf first id)) = first.find? id
    rw [recordOf_found found, same, found]

/-- Catalog files of the same records hold the same. -/
theorem Held.alike {file : String} {first second : Disk} (held : Held grounds file first catalog)
    (again : Held grounds file second catalog) (some_ : catalog.records ≠ []) :
    second.entryAt? (grounds.spot file) = first.entryAt? (grounds.spot file) := by
  rw [held.holds.resolve_right fun empty => some_ empty.1,
    again.holds.resolve_right fun empty => some_ empty.1]

section Built

variable {present again : Workspace} (built : Built grounds settings tags present)

include built

/-- The catalogs of a built project open as they were left. -/
theorem Built.opens (firm : grounds.Firm) (saving : grounds.saving)
    (suits : grounds.Suits settings) (countable : ∀ record ∈ present.foreign.records, record.Countable) :
    Catalog.openAt present.disk.calmed (catalogPath settings.target) = .ok present.foreign ∧
      Catalog.openAt present.disk.calmed (settings.target.child Catalogs.externalFile) =
        .ok present.external := by
  obtain ⟨steady, saved⟩ := built.holds
  obtain ⟨foreign, external, sorted, exported⟩ := saved saving
  have current : present.disk.calmed.current = grounds.current := steady.grounded.current
  rw [suits.target]
  constructor
  · exact foreign.calmed.opens current List.mem_cons_self steady.foreign.path steady.foreign.sorted
      (fun record member => (steady.foreign.records record member).textual firm) countable
  · refine external.calmed.opens current (List.mem_cons_of_mem _ List.mem_cons_self)
      steady.external sorted (fun record member => ?_) fun record member count counted => ?_
    · have told := exported record member
      exact ⟨fun path source => (told.source path source).isText firm, by simp [told.xmir],
        by simp [told.optimized], by simp [told.discoveredAt]⟩
    · rw [built.uncounted record member] at counted
      exact absurd counted (by simp)

/-- The files of a built project can be registered again. -/
theorem Built.renewing (saving : grounds.saving) (disk : again.disk = present.disk.calmed)
    (foreign : again.foreign = present.foreign) (external : again.external = present.external) :
    Renewing grounds settings (registeredFiles settings present.disk) present.disk again := by
  obtain ⟨steady, saved⟩ := built.holds
  obtain ⟨heldForeign, heldExternal, sorted, exported⟩ := saved saving
  refine ⟨?_, ?_, ?_, ?_, fun location _ _ => ?_, fun file member => ?_⟩
  · exact disk ▸ steady.grounded.calmed
  · exact disk ▸ present.disk.calm_calmed
  · rw [disk, foreign]
    exact ⟨steady.foreign.path, steady.foreign.sorted, heldForeign.calmed, fun record member path
      source => ((steady.foreign.records record member).source path source).2⟩
  · rw [disk, external]
    exact ⟨steady.external, sorted, heldExternal.calmed, exported⟩
  · rw [disk, Disk.entryAt?_calmed]
  · obtain ⟨last, isLast⟩ := lastNamed_of_mem member
    rw [foreign, external]
    unfold Catalog.contains
    constructor
    · obtain ⟨record, found, _⟩ := built.foreign _ _ isLast
      rw [found]
      rfl
    · intro versions
      obtain ⟨record, found, _⟩ := built.external versions _ _ isLast
      rw [found]
      rfl

/-- A file that was registered again leaves the disk: the catalog files hold the records that they
held. -/
theorem Built.entryAt?_eq {registered : Workspace} {file : Path} (saving : grounds.saving)
    (last : Renewing grounds settings (registeredFiles settings present.disk) present.disk registered)
    (sameForeign : registered.foreign = present.foreign)
    (sameExternal : registered.external = present.external)
    (member : file ∈ registeredFiles settings present.disk) (location : Location) :
    registered.disk.entryAt? location = present.disk.entryAt? location := by
  obtain ⟨heldForeign, heldExternal, _⟩ := built.holds.2 saving
  obtain ⟨final, isLast⟩ := lastNamed_of_mem member
  by_cases atForeign : location = grounds.spot Catalogs.foreignFile
  · obtain ⟨record, found, _⟩ := built.foreign _ _ isLast
    rw [atForeign]
    exact heldForeign.alike (sameForeign ▸ last.foreign.held)
      (List.ne_nil_of_mem (Catalog.mem_of_find? found))
  · by_cases atExternal : settings.withVersions = true ∧ location = grounds.spot Catalogs.externalFile
    · obtain ⟨versions, isSpot⟩ := atExternal
      obtain ⟨record, found, _⟩ := built.external versions _ _ isLast
      rw [isSpot]
      exact heldExternal.alike (sameExternal ▸ last.external.held)
        (List.ne_nil_of_mem (Catalog.mem_of_find? found))
    · exact last.others location atForeign fun versions same => atExternal ⟨versions, same⟩

/-- Registering the files of a built project again leaves both catalogs and the disk. -/
theorem Built.registers (firm : grounds.Firm) (saving : grounds.saving)
    (suits : grounds.Suits settings) (disk : again.disk = present.disk.calmed)
    (foreign : again.foreign = present.foreign) (external : again.external = present.external) :
    ∃ registered, (registerFiles settings (registeredFiles settings again.disk)).Yields again ()
        registered ∧ registered.foreign = present.foreign ∧ registered.external = present.external ∧
      present.disk.Alike registered.disk ∧ registered.slot = again.slot ∧
      registered.journal = again.journal := by
  obtain ⟨steady, saved⟩ := built.holds
  obtain ⟨_, _, sorted, _⟩ := saved saving
  have files : registeredFiles settings again.disk = registeredFiles settings present.disk := by
    rw [disk, registeredFiles_calmed]
  rw [files]
  obtain ⟨registered, ran, last⟩ := (built.renewing saving disk foreign external).registerFiles
    firm saving suits.sources fun file member => ⟨member, built.proper file member⟩
  have enlisted := registerFiles_enlists ran
  have sameForeign : registered.foreign = present.foreign := by
    refine Catalog.eq_of_find (last.foreign.path.trans steady.foreign.path.symm)
      steady.foreign.sorted last.foreign.sorted fun id => ?_
    have noted := enlisted.foreign
    rw [foreign] at noted
    exact noted.absorbed built.foreign id
  have sameExternal : registered.external = present.external := by
    have rule := enlisted.external
    rw [external] at rule
    split at rule
    · next versions =>
      exact Catalog.eq_of_find (last.external.path.trans steady.external.symm) sorted
        last.external.sorted fun id => rule.absorbed (built.external versions) id
    · exact rule
  obtain ⟨_, _, _, frame⟩ := enlisted.frame
  refine ⟨registered, ran, sameForeign, sameExternal,
    ⟨last.grounded.current.trans steady.grounded.current.symm, fun location => ?_⟩, by rw [frame],
    by rw [frame]⟩
  cases isFiles : registeredFiles settings present.disk with
  | nil =>
    rw [isFiles] at ran
    rw [← (Step.yields_pure.1 ran).2, disk, Disk.entryAt?_calmed]
  | cons file rest =>
    have member : file ∈ registeredFiles settings present.disk := by
      rw [isFiles]
      exact List.mem_cons_self
    exact built.entryAt?_eq saving last sameForeign sameExternal member location

/-- A built project can be built again: one cycle runs, nothing but the table is asked for, and
catalogs and files are as they were. -/
theorem Built.repeats (firm : grounds.Firm) (saving : grounds.saving)
    (suits : grounds.Suits settings) (countable : ∀ record ∈ present.foreign.records, record.Countable)
    (disk : again.disk = present.disk.calmed) (constant : ∀ disk, remote.table disk = tags)
    (slot : ∀ text ∈ again.slot.text, tags = .ok text) :
    ∃ last, (assemble settings remote).Yields again
        ⟨(registeredFiles settings present.disk).length, 1, 0, present.foreign.size⟩ last ∧
      last.foreign = present.foreign ∧ last.external = present.external ∧
      (∀ location, last.disk.entryAt? location = present.disk.entryAt? location) ∧
      ∃ gained, last.journal = again.journal ++ gained ∧ ∀ request ∈ gained, request = .table := by
  obtain ⟨openedForeign, openedExternal⟩ := built.opens firm saving suits countable
  rw [← disk] at openedForeign openedExternal
  have opened : ({ again with foreign := present.foreign, external := present.external } :
      Workspace).disk = present.disk.calmed := disk
  obtain ⟨registered, ranFiles, foreign, external, alike, sameSlot, sameJournal⟩ :=
    built.registers firm saving suits opened rfl rfl
  have settled : Settled settings tags registered.disk registered.foreign := by
    rw [foreign]
    exact built.settled.alike alike
  have agrees : Agrees tags registered.slot none := by
    rw [sameSlot]
    exact ⟨slot, by simp⟩
  obtain ⟨bound, isBound⟩ := Nat.exists_eq_succ_of_ne_zero built.bound
  obtain ⟨last, ranSettle, rested⟩ := settle_yields constant settled agrees bound
  have isDirectory : again.disk.isDirectory settings.sources = true := by
    rw [disk, (Disk.alike_calmed present.disk).isDirectory]
    exact built.sources
  have sameLast := rested.foreign.trans foreign
  refine ⟨last, yields_assemble_opened.2 ⟨_, _, registered, openedForeign, openedExternal,
    yields_register.2 ⟨isDirectory, built.included, built.excluded, ?_, ranFiles⟩, ?_, ?_⟩, sameLast,
      rested.external.trans external, fun location => ?_, ?_⟩
  · rw [disk, registeredFiles_calmed]
  · rw [isBound]
    exact ranSettle
  · rw [sameLast]
  · rw [rested.disk]
    exact alike.entries location
  · rw [← sameJournal]
    exact rested.asked

end Built

/-! ## Unbuilt projects -/

/-- The grounds of a project whose directories are apart. -/
def Grounds.apartFor (settings : Settings) (current : Location) : Grounds :=
  ⟨settings.sources, settings.target, settings.protocols, current, fun _ => False, False, True⟩

/-- A project that was never built: its directories are apart, nothing is in its target,
sources are not overwritten, and the store and the table of tags are functions. -/
structure Unbuilt (settings : Settings) (remote : Remote) (tags : Except Failure String)
    (start : Workspace) : Prop where
  sound : start.disk.Sound
  named : start.disk.WellNamed
  tidy : start.disk.Tidy
  sources : settings.sources.IsText
  target : settings.target.IsText
  protocols : settings.protocols.IsText
  separate : Separate settings start.disk.current
  fresh : NothingBelow start.disk (settings.target.goal start.disk.current)
  keeps : settings.overwrite = false
  store : ∃ store, remote.fetch = Remote.fetchOf store
  table : ∀ disk, remote.table disk = tags
  slot : ∀ text ∈ start.slot.text, tags = .ok text

section Unbuilt

variable {start : Workspace} (unbuilt : Unbuilt settings remote tags start)

include unbuilt

theorem Unbuilt.firm : (Grounds.apartFor settings start.disk.current).Firm where
  sources := unbuilt.sources
  target := unbuilt.target
  protocols := unbuilt.protocols
  apart := unbuilt.separate.protocolsTarget.goal
  back := unbuilt.separate.targetProtocols.goal
  ownTarget _ owned := owned.elim
  ownSources _ owned := owned.elim
  separate _ :=
    ⟨unbuilt.separate.targetProtocols, unbuilt.separate.protocolsTarget,
      unbuilt.separate.targetSources, unbuilt.separate.sourcesTarget,
      unbuilt.separate.protocolsSources, unbuilt.separate.sourcesProtocols,
      unbuilt.separate.directTarget, unbuilt.separate.directProtocols⟩

omit unbuilt in
theorem suits_apartFor (current : Location) : (Grounds.apartFor settings current).Suits settings :=
  ⟨rfl, rfl, rfl, fun strict => strict.elim⟩

theorem Unbuilt.grounded : Grounded (Grounds.apartFor settings start.disk.current) start.disk :=
  ⟨unbuilt.sound, unbuilt.named, rfl⟩

/-- The workspace of an unbuilt project, once it is opened. -/
def emptied (settings : Settings) (start : Workspace) : Workspace :=
  { start with
    foreign := ⟨catalogPath settings.target, []⟩
    external := ⟨settings.target.child Catalogs.externalFile, []⟩ }

theorem Unbuilt.holds :
    (Grounds.apartFor settings start.disk.current).regime.holds (emptied settings start) := by
  have nothing : ∀ file, start.disk.entryAt?
      ((Grounds.apartFor settings start.disk.current).spot file) = none := fun file =>
    unbuilt.fresh _ (List.prefix_append _ [file]) fun same => by
      have itself : settings.target.goal start.disk.current ++ [file] =
          settings.target.goal start.disk.current := same
      simp at itself
  have held : ∀ file path, Held (Grounds.apartFor settings start.disk.current) file start.disk
      ⟨path, []⟩ := fun file path =>
    ⟨Or.inr ⟨rfl, nothing file⟩, nothing _, fun some_ => absurd rfl some_,
      fun some_ => absurd rfl some_⟩
  refine ⟨⟨unbuilt.grounded, ⟨rfl, List.Pairwise.nil, fun record member => absurd member (by simp [emptied])⟩,
    rfl, fun text records stands => ?_⟩, fun _ => ⟨held _ _, held _ _, List.Pairwise.nil,
      fun record member => absurd member (by simp [emptied])⟩⟩
  rw [goal_catalogPath] at stands
  have free := nothing Catalogs.foreignFile
  unfold Grounds.spot at free
  rw [show start.disk.entryAt? _ = _ from stands] at free
  exact absurd free (by simp)

/-! ## The next build -/

variable {final : Workspace} {answer : Assembly}

/-- What a build of an unbuilt project did, and what it ended with. -/
theorem Unbuilt.ends (ran : (assemble settings remote).Yields start answer final) :
    ∃ registered, start.disk.isDirectory settings.sources = true ∧
      (∃ included, Settings.patterns settings.included = .ok included) ∧
      (∃ excluded, Settings.patterns settings.excluded = .ok excluded) ∧
      answer.registered = (registeredFiles settings start.disk).length ∧
      (registerFiles settings (registeredFiles settings start.disk)).Yields
        (emptied settings start) () registered ∧
      (settle settings remote settings.maxCycles).Yields registered
        (answer.cycles, answer.pulled) final ∧
      answer.objects = final.foreign.size := by
  obtain ⟨foreign, external, registered, openedForeign, openedExternal, ranRegister, ranSettle,
    objects⟩ := yields_assemble_opened.1 ran
  rw [openAt_fresh unbuilt.fresh isName_foreign openedForeign,
    openAt_fresh unbuilt.fresh isName_external openedExternal] at ranRegister
  obtain ⟨isDirectory, included, excluded, count, ranFiles⟩ := yields_register.1 ranRegister
  exact ⟨registered, isDirectory, included, excluded, count, ranFiles, ranSettle, objects⟩

theorem Unbuilt.suitable (isDirectory : start.disk.isDirectory settings.sources = true) :
    ∀ file ∈ registeredFiles settings start.disk,
      Suitable (Grounds.apartFor settings start.disk.current) file start.disk :=
  fun _ member => suitable_of_filesIn unbuilt.firm unbuilt.grounded (Or.inr trivial)
    (fun _ _ among => filesIn_segments unbuilt.tidy isDirectory among)
    (registeredFiles_filesIn member)

theorem Unbuilt.keepsTo : remote.KeepsTo fun _ => False := by
  obtain ⟨store, function⟩ := unbuilt.store
  intro name disk sound
  rw [function]
  exact ⟨sound, rfl, fun _ _ => rfl⟩

theorem Unbuilt.keepsNames : remote.KeepsNames := by
  obtain ⟨store, function⟩ := unbuilt.store
  intro name disk named
  rw [function]
  exact named

/-- Registering and settling keep the regime, and the sources stay as they are. -/
theorem Unbuilt.reaches {registered : Workspace} {bound : Nat} {counts : Nat × Nat}
    (isDirectory : start.disk.isDirectory settings.sources = true)
    (ranFiles : (registerFiles settings (registeredFiles settings start.disk)).Yields
      (emptied settings start) () registered)
    (ranSettle : (settle settings remote bound).Yields registered counts final) :
    (Grounds.apartFor settings start.disk.current).regime.holds registered ∧
      (Grounds.apartFor settings start.disk.current).regime.holds final ∧
      final.disk.isDirectory settings.sources = true ∧
      registeredFiles settings final.disk = registeredFiles settings start.disk := by
  have firm := unbuilt.firm
  have suits : (Grounds.apartFor settings start.disk.current).Suits settings := suits_apartFor _
  obtain ⟨holdsRegistered, first, _⟩ := (governs_registerFiles firm suits _ (emptied settings start)
    unbuilt.holds ⟨unbuilt.suitable isDirectory,
      fun record member => absurd member (by simp [emptied])⟩).1 () registered ranFiles
  obtain ⟨holds, second, _⟩ := (governs_settle firm suits unbuilt.keepsTo unbuilt.keepsNames bound
    registered holdsRegistered trivial).1 _ final ranSettle
  have onward := first.1.trans second.1
  have current := holds.1.grounded.current
  have sources : final.disk.isDirectory settings.sources = true :=
    onward.isDirectory_sources firm trivial rfl current isDirectory
  obtain ⟨store, function⟩ := unbuilt.store
  have tidyRegistered : registered.disk.Tidy := (tidy_invariant function).registerFiles _
    (emptied settings start) () registered unbuilt.tidy ranFiles
  have tidy := ((tidy_invariant function).supply settings).settle bound registered _ final
    tidyRegistered ranSettle
  exact ⟨holdsRegistered, holds, sources, registeredFiles_congr
    (filesIn_congr unbuilt.tidy tidy current isDirectory sources (onward.sources trivial))⟩

omit unbuilt in
/-- Where nothing was exported before, what is exported is what was registered. -/
theorem Enlisted.exported {files : List Path} {id : String} {record : Record}
    (enlisted : Enlisted settings files before after)
    (nothing : ∀ id, before.external.find? id = none)
    (found : after.external.find? id = some record) :
    settings.withVersions = true ∧ ∃ file, lastNamed files id = some file ∧
      record = asExported (settings.sources.join file) settings.project.version (.ofId id) := by
  have rule := enlisted.external
  split at rule
  · next versions =>
    rw [rule id] at found
    refine ⟨versions, ?_⟩
    cases isLast : lastNamed files id with
    | none =>
      rw [isLast] at found
      exact absurd found (by simp [nothing])
    | some file =>
      rw [isLast, recordOf, nothing] at found
      exact ⟨file, rfl, (Option.some.inj found).symm⟩
  · rw [rule, nothing] at found
    exact absurd found (by simp)

/-- A build of an unbuilt project leaves it built. -/
theorem Unbuilt.built (ran : (assemble settings remote).Yields start answer final) :
    Built (Grounds.apartFor settings start.disk.current) settings tags final ∧
      answer.registered = (registeredFiles settings final.disk).length ∧
      answer.objects = final.foreign.size := by
  obtain ⟨registered, isDirectory, included, excluded, count, ranFiles, ranSettle, objects⟩ :=
    unbuilt.ends ran
  obtain ⟨holdsRegistered, holds, sources, files⟩ :=
    unbuilt.reaches isDirectory ranFiles ranSettle
  have enlisted := registerFiles_enlists ranFiles
  have sameExternal := (supply_external settings remote registered.external).settle
    settings.maxCycles registered _ final rfl ranSettle
  refine ⟨⟨holds, ?_, sources, included, excluded, ?_, ?_, ?_, ?_, ?_⟩, ?_, objects⟩
  · refine settled_end unbuilt.firm trivial (suits_apartFor _) unbuilt.keepsTo unbuilt.keepsNames
      unbuilt.table unbuilt.keeps holdsRegistered ?_ ranSettle
    obtain ⟨_, _, _, same⟩ := enlisted.frame
    rw [same]
    exact ⟨unbuilt.slot, by simp⟩
  · rw [files]
    exact fun file member => ⟨(unbuilt.suitable isDirectory file member).names,
      filesIn_segments unbuilt.tidy isDirectory (registeredFiles_filesIn member),
      fun strict => registerFiles_check strict ranFiles file member⟩
  · rw [files]
    exact fun id file isLast => registered_stays enlisted
      (fun record found => absurd found (by simp [emptied, Catalog.find?, Ordered.find?])) isLast ranSettle
  · rw [files]
    intro versions id file isLast
    have rule := enlisted.external
    rw [if_pos versions] at rule
    have found := rule id
    rw [isLast, ← sameExternal] at found
    exact ⟨_, found, asExported_absorbs _ _ _ _⟩
  · intro record member
    have found := Catalog.find?_of_mem (holds.2 trivial).sorted member
    rw [sameExternal] at found
    obtain ⟨_, file, _, same⟩ := enlisted.exported (fun _ => rfl) found
    rw [same]
    rfl
  · intro zero
    rw [zero] at ranSettle
    exact absurd ranSettle Step.yields_fail
  · rw [files]
    exact count

end Unbuilt

/-- A build that succeeded from an empty target, run again where nothing changed and no failure is
forced: it succeeds with the same counts after one cycle, pulls nothing, asks for the table at
most, and leaves the records of both catalogs and every file.  The store and the parser of the
second build may be any; counts of references are taken to fit a machine word. -/
theorem assemble_repeats {other : Remote} {start final again : Workspace} {answer : Assembly}
    (unbuilt : Unbuilt settings remote tags start)
    (ran : (assemble settings remote).Yields start answer final)
    (countable : ∀ record ∈ final.foreign.records, record.Countable)
    (disk : again.disk = final.disk.calmed) (constant : ∀ disk, other.table disk = tags)
    (slot : ∀ text ∈ again.slot.text, tags = .ok text) :
    ∃ last, (assemble settings other).Yields again ⟨answer.registered, 1, 0, answer.objects⟩ last ∧
      last.foreign = final.foreign ∧ last.external = final.external ∧
      (∀ location, last.disk.entryAt? location = final.disk.entryAt? location) ∧
      ∃ gained, last.journal = again.journal ++ gained ∧ ∀ request ∈ gained, request = .table := by
  obtain ⟨built, registered, objects⟩ := unbuilt.built ran
  rw [registered, objects]
  exact built.repeats unbuilt.firm trivial (suits_apartFor _) countable disk constant slot

/-! ## A build run again -/

/-- The sample project after its build, in another process. -/
def repeatedStart : Workspace :=
  { sampleStart with disk := sampleRun.2.disk.calmed }

/-- A store and a parser that refuse everything, with the table of the sample project. -/
def refusingRemote : Remote where
  fetch name disk := (.error (.notFound name), disk)
  parse id _ := .error (.notFound id)
  table _ := .ok ""

theorem unbuilt_sample : Unbuilt sampleSettings sampleRemote (.ok "") sampleStart where
  sound := Disk.sound_of_entries (by decide) (by decide)
  named := by decide
  tidy := by decide
  sources := by decide
  target := by decide
  protocols := by decide
  separate := ⟨by decide, by decide, by decide, by decide, by decide, by decide, by decide,
    by decide⟩
  fresh := nothingBelow_of_entries (by decide) (by decide)
  keeps := rfl
  store := ⟨_, rfl⟩
  table _ := rfl
  slot _ member := absurd member (by simp [sampleStart, TableSlot.empty])

theorem sample_countable : ∀ record ∈ sampleRun.2.foreign.records, record.Countable := by
  obtain ⟨_, _, _, _, _, counts⟩ := sampleRun_facts
  intro record member count counted
  have among : record.discovered ∈ sampleRun.2.foreign.records.map Record.discovered :=
    List.mem_map_of_mem member
  rw [counts, Option.mem_def.1 counted] at among
  simp only [List.mem_cons, Option.some.injEq, List.not_mem_nil, or_false] at among
  rcases among with rfl | rfl
  · exact UInt64.toNat_lt 1
  · exact UInt64.toNat_lt 0

theorem sample_repeats : Unbuilt sampleSettings sampleRemote (.ok "") sampleStart ∧
    (assemble sampleSettings sampleRemote).Yields sampleStart ⟨1, 3, 1, 2⟩ sampleRun.2 ∧
    ∃ last, (assemble sampleSettings refusingRemote).Yields repeatedStart ⟨1, 1, 0, 2⟩ last ∧
      last.foreign = sampleRun.2.foreign ∧ last.external = sampleRun.2.external ∧
      (∀ location, last.disk.entryAt? location = sampleRun.2.disk.entryAt? location) ∧
      ∃ gained, last.journal = repeatedStart.journal ++ gained ∧
        ∀ request ∈ gained, request = .table :=
  have ran : (assemble sampleSettings sampleRemote).Yields sampleStart ⟨1, 3, 1, 2⟩ sampleRun.2 :=
    Step.yields_perform sampleRun_facts.1
  ⟨unbuilt_sample, ran, assemble_repeats unbuilt_sample ran sample_countable rfl (fun _ => rfl)
    fun _ member => absurd member (by simp [repeatedStart, sampleStart, TableSlot.empty])⟩

end Build

end EoAssembly
