import EoAssembly.Proofs.Build.Enlisting
import EoAssembly.Proofs.Build.History

/-!
Contract: which source an object has when there is one in the project and one in the store.

Registering gives an object the file in the sources, and leaves open whether its source was
pulled.  A pull leaves an object alone when its source was not pulled: such an object keeps
its file, and is not fetched.  Where a source was pulled once, the pull takes it up again.

Owns `Described`, `Homemade`, and that a source in the project goes before one in the store
where none was pulled.
-/

namespace EoAssembly.Build

open Step (Keeps)

variable {settings : Settings} {remote : Remote} {before between after : Workspace}
  {id name : String}

/-! ## Records of one object -/

/-- What is told of the record of an object. -/
def Described (id : String) (told : Record → Prop) (present : Workspace) : Prop :=
  ∃ record, present.foreign.find? id = some record ∧ told record

section Described

variable {told : Record → Prop}

theorem Described.of_foreign (described : Described id told before)
    (same : after.foreign = before.foreign) : Described id told after := by
  unfold Described
  rw [same]
  exact described

theorem described_addForeign : (Step.addForeign name).Keeps (Described id told) := by
  intro before record after described ran
  rcases addForeign_catalog ran with ⟨_, same⟩ | ⟨missing, same⟩
  · rw [same]
    exact described
  · obtain ⟨old, found, here⟩ := described
    refine ⟨old, ?_, here⟩
    have different : name ≠ id := by
      intro isId
      rw [isId, found] at missing
      exact absurd missing (by simp)
    rw [same, Catalog.find?_put_other _ different]
    exact found

theorem described_updateForeign {change : Record → Record}
    (stays : name = id → ∀ record, told record → told { change record with id := record.id }) :
    (Step.updateForeign name change).Keeps (Described id told) := by
  intro before record after ⟨present, found, here⟩ ran
  obtain ⟨old, foundOld, changed, sameId, same⟩ := updateForeign_catalog ran
  by_cases isId : name = id
  · rw [isId, found] at foundOld
    refine ⟨record, ?_, ?_⟩
    · rw [same, ← isId, ← sameId]
      exact Catalog.find?_put_same before.foreign record
    · rw [changed, ← Option.some.inj foundOld]
      exact stays isId present here
  · refine ⟨present, ?_, here⟩
    rw [same, Catalog.find?_put_other _ (by rw [sameId]; exact isId)]
    exact found

theorem Described.enlisted {files : List Path} (described : Described id told before)
    (enlisted : Enlisted settings files before after)
    (stays : ∀ file record, told record → told (asRegistered file record)) :
    Described id told after := by
  obtain ⟨record, found, here⟩ := described
  have noted := enlisted.foreign id
  rw [found, recordOf_found found] at noted
  cases isLast : lastNamed files id with
  | none =>
    rw [isLast] at noted
    exact ⟨record, noted, here⟩
  | some file =>
    rw [isLast] at noted
    exact ⟨_, noted, stays _ _ here⟩

end Described

theorem Step.write_foreign {path : Path} {text : String} {value : Unit}
    (ran : (Step.write path text).Yields before value after) :
    after.foreign = before.foreign ∧ after.journal = before.journal := by
  obtain ⟨_, _, result⟩ := Step.yields_write.1 ran
  rw [result]
  exact ⟨rfl, rfl⟩

/-! ## Objects of the project -/

/-- An object has a source that was not pulled, and has not been fetched since. -/
structure Homemade (id : String) (source : Path) (asked : List Request) (present : Workspace) :
    Prop where
  record : Described id (fun record => record.source = some source ∧ record.pulled = false) present
  journal : ∃ gained, present.journal = asked ++ gained ∧ .source id ∉ gained

variable {source : Path} {asked : List Request}

theorem Homemade.isLocal (homemade : Homemade id source asked before) :
    isLocal before.foreign id = true := by
  obtain ⟨record, found, isSource, notPulled⟩ := homemade.record
  unfold Build.isLocal
  rw [found]
  show (record.source.isSome && !record.pulled) = true
  rw [isSource, notPulled]
  rfl

theorem Homemade.ask {request : Request} (homemade : Homemade id source asked before)
    (other : request ≠ .source id) (same : after.foreign = before.foreign)
    (journal : after.journal = before.journal ++ [request]) : Homemade id source asked after := by
  refine ⟨homemade.record.of_foreign same, ?_⟩
  obtain ⟨gained, isGained, unasked⟩ := homemade.journal
  refine ⟨gained ++ [request], ?_, ?_⟩
  · rw [journal, isGained, List.append_assoc]
  · rw [List.mem_append, not_or]
    exact ⟨unasked, fun member => other (List.mem_singleton.1 member).symm⟩

theorem LaterChange.keeps_source {change : Record → Record} (made : LaterChange change)
    (record : Record) :
    (change record).source = record.source ∧ (change record).pulled = record.pulled := by
  cases made <;> exact ⟨rfl, rfl⟩

/-- Cycles leave an object of the project alone. -/
theorem supply_homemade (settings : Settings) (remote : Remote) (id : String) (source : Path)
    (asked : List Request) :
    Supply settings remote (fun name => name ≠ id) (Homemade id source asked) where
  add name := by
    intro before record after homemade ran
    refine ⟨described_addForeign before record after homemade.record ran, ?_⟩
    obtain ⟨_, _, _, result⟩ := Step.yields_addForeign.1 ran
    rw [result]
    exact homemade.journal
  update name change made := by
    intro before record after homemade ran
    refine ⟨described_updateForeign (fun _ old here => ?_) before record after homemade.record ran,
      ?_⟩
    · obtain ⟨sameSource, samePulled⟩ := made.keeps_source old
      exact ⟨sameSource.trans here.1, samePulled.trans here.2⟩
    · obtain ⟨_, _, _, result⟩ := Step.yields_updateForeign.1 ran
      rw [result]
      exact homemade.journal
  write path text := by
    intro before value after homemade ran
    obtain ⟨foreign, journal⟩ := Step.write_foreign ran
    refine ⟨homemade.record.of_foreign foreign, ?_⟩
    rw [journal]
    exact homemade.journal
  parse name text := by
    intro before value after homemade ran
    obtain ⟨_, result⟩ := Step.yields_parse.1 ran
    rw [result]
    exact homemade.ask (show Request.document name ≠ .source id by simp) rfl rfl
  pulled name version hash isSought := by
    intro before record after homemade ran
    refine ⟨described_updateForeign (fun same => absurd same isSought) before record after
      homemade.record ran, ?_⟩
    obtain ⟨_, _, _, result⟩ := Step.yields_updateForeign.1 ran
    rw [result]
    exact homemade.journal
  fetch name isSought := by
    intro before value after homemade ran
    obtain ⟨_, _, result⟩ := Step.yields_fetch.1 ran
    rw [result]
    exact homemade.ask (show Request.source name ≠ .source id by simpa using isSought) rfl rfl
  table := by
    intro before value after homemade ran
    obtain ⟨slot, journal, result, same | more⟩ := Step.table_frame ran
    · rw [result, same]
      exact ⟨homemade.record, homemade.journal⟩
    · rw [result, more]
      exact homemade.ask (show Request.table ≠ .source id by simp) rfl rfl
  leaves present name homemade notLocal := by
    intro same
    rw [same, homemade.isLocal] at notLocal
    exact absurd notLocal (by simp)

/-- Where every file has a name of its own, each is the last of its name. -/
theorem lastNamed_of_nodup {files : List Path} {file : Path}
    (distinct : (files.map idOf).Nodup) (member : file ∈ files) :
    lastNamed files (idOf file) = some file := by
  cases found : lastNamed files (idOf file) with
  | none =>
    unfold lastNamed at found
    rw [List.getLast?_eq_none_iff, List.filter_eq_nil_iff] at found
    exact absurd (beq_iff_eq.2 rfl) (found file member)
  | some other =>
    obtain ⟨among, same⟩ := lastNamed_mem found
    rw [List.inj_on_of_nodup_map distinct among member same]

/-- Where no source of an object was pulled, an assembly that succeeds leaves the object with
its file in the sources, and does not fetch it. -/
theorem local_source_wins {answer : Assembly} {catalog : Catalog} {file : Path}
    (ran : (assemble settings remote).Yields before answer after)
    (opened : Catalog.openAt before.disk (catalogPath settings.target) = .ok catalog)
    (distinct : (registeredIds settings before.disk).Nodup)
    (selected : file ∈ registeredFiles settings before.disk)
    (unpulled : ∀ record, catalog.find? (idOf file) = some record → record.pulled = false) :
    (∃ record, after.foreign.find? (idOf file) = some record ∧
      record.source = some (settings.sources.join file)) ∧
    ∃ gained, after.journal = before.journal ++ gained ∧ .source (idOf file) ∉ gained := by
  obtain ⟨foreign, external, registered, openedForeign, enlisted, ranSettle⟩ := assemble_enlists ran
  have isCatalog : catalog = foreign := Except.ok.inj (opened.symm.trans openedForeign)
  have isLast := lastNamed_of_nodup distinct selected
  have homemade : Homemade (idOf file) (settings.sources.join file) before.journal registered := by
    refine ⟨⟨asRegistered (settings.sources.join file) (recordOf foreign (idOf file)), ?_, rfl, ?_⟩,
      [], ?_, List.not_mem_nil⟩
    · rw [enlisted.foreign (idOf file), isLast]
      rfl
    · show (recordOf foreign (idOf file)).pulled = false
      cases found : foreign.find? (idOf file) with
      | none =>
        unfold recordOf
        rw [found]
        rfl
      | some record =>
        rw [recordOf_found found]
        exact unpulled record (isCatalog ▸ found)
    · obtain ⟨_, _, _, same⟩ := enlisted.frame
      rw [same, List.append_nil]
  have atEnd := (supply_homemade settings remote _ _ _).settle settings.maxCycles registered _ after
    homemade ranSettle
  obtain ⟨record, found, isSource, _⟩ := atEnd.record
  exact ⟨⟨record, found, isSource⟩, atEnd.journal⟩

/-! ## Pulled sources -/

/-- An object is recorded with the source that was pulled for it. -/
def Taken (settings : Settings) (id : String) : Workspace → Prop :=
  Described id fun record => record.pulled = true ∧
    ∃ source ∈ record.source, source.same (pulledPlace settings.target id) = true

/-- What holds of the record of an object through all stages holds at the end of a cycle. -/
theorem supply_described {told : Record → Prop}
    (later : ∀ change, LaterChange change → ∀ record, told record →
      told { change record with id := record.id })
    (pulled : ∀ record version hash, told record →
      told (asPulled (pulledPlace settings.target id) version hash record)) :
    Supply settings remote (fun _ => True) (Described id told) where
  add name := described_addForeign
  update name change made := described_updateForeign fun _ => later change made
  write path text := fun _ _ _ described ran => described.of_foreign (Step.write_foreign ran).1
  parse name text := by
    intro before value after described ran
    obtain ⟨_, result⟩ := Step.yields_parse.1 ran
    exact described.of_foreign (by rw [result])
  pulled name version hash _ := by
    refine described_updateForeign fun same record here => ?_
    rw [same]
    exact pulled record version hash here
  fetch name _ := by
    intro before value after described ran
    obtain ⟨_, _, result⟩ := Step.yields_fetch.1 ran
    exact described.of_foreign (by rw [result])
  table := by
    intro before value after described ran
    obtain ⟨_, _, result, _⟩ := Step.table_frame ran
    exact described.of_foreign (by rw [result])
  leaves _ _ _ _ := trivial

theorem supply_pulled (settings : Settings) (remote : Remote) (id : String) :
    Supply settings remote (fun _ => True) (Described id fun record => record.pulled = true) :=
  supply_described (fun _ made record here => (made.keeps_source record).2.trans here)
    fun _ _ _ _ => rfl

theorem supply_taken (settings : Settings) (remote : Remote) (id : String) :
    Supply settings remote (fun _ => True) (Taken settings id) := by
  refine supply_described (fun change made record here => ?_) fun record version hash _ => ?_
  · obtain ⟨sameSource, samePulled⟩ := made.keeps_source record
    exact ⟨samePulled.trans here.1, by simpa only [sameSource] using here.2⟩
  · exact ⟨rfl, _, rfl, beq_self_eq_true _⟩

theorem taken_recordPulled {hash : Option String} (ran : (recordPulled settings remote id
    (pulledPlace settings.target id) hash).Yields before () after) : Taken settings id after := by
  obtain ⟨_, _, record, updated, _, ranUpdate, rest⟩ := yields_recordPulled.1 ran
  obtain ⟨old, _, changed, _, _⟩ := updateForeign_catalog ranUpdate
  have here : Taken settings id updated := by
    refine ⟨record, updateForeign_find? ranUpdate, ?_⟩
    rw [changed]
    exact ⟨rfl, _, rfl, beq_self_eq_true _⟩
  rcases rest with ⟨_, place, ranParse⟩ | ⟨_, rfl⟩
  · exact (supply_taken settings remote id).parseObject id updated place after here ranParse
  · exact here

/-- A source that was pulled and is there is taken up again. -/
theorem taken_pullName {known : Option HashTable} {answer : Nat × Option HashTable}
    (pulled : Described id (fun record => record.pulled = true) before)
    (there : before.disk.exists? (pulledPlace settings.target id) = true)
    (ran : (pullName settings remote known id).Yields before answer after) :
    Taken settings id after := by
  have notLocal : isLocal before.foreign id = false := by
    obtain ⟨record, found, isPulled⟩ := pulled
    unfold isLocal
    rw [found]
    simp [isPulled]
  obtain ⟨count, table⟩ := answer
  rcases yields_pullName.1 ran with ⟨wrong, _⟩ | ⟨_, _, _, ready, ranPinned, ranPull⟩
  · rw [notLocal] at wrong
    exact absurd wrong (by simp)
  obtain ⟨slot, journal, isReady, _⟩ := pinned_frame ranPinned
  cases yields_pullPinned.1 ranPull with
  | left leave =>
    rw [isReady] at leave
    have missing := (pullChoice_leave leave).1
    rw [there] at missing
    exact absurd missing (by simp)
  | fetched _ _ ranRecord => exact taken_recordPulled ranRecord
  | recorded _ _ ranRecord => exact taken_recordPulled ranRecord
  | kept _ recorded =>
    obtain ⟨record, source, found, isPulled, isSource, same⟩ := isRecorded_iff.1 recorded
    exact ⟨record, found, isPulled, source, isSource, same⟩

section Returns

variable {grounds : Grounds} (firm : grounds.Firm) (suits : grounds.Suits settings)
  (store : remote.KeepsTo grounds.own) (named : remote.KeepsNames)

include firm suits store named

theorem taken_pullEach {names : List String} {known : Option HashTable} {count : Nat}
    (some_ : ∀ name ∈ names, ObjectName.segments "log" name ≠ [])
    (holds : grounds.regime.holds before)
    (referred : ∀ name ∈ names, grounds.strict →
      Referred grounds before.disk before.foreign name)
    (pulled : Described id (fun record => record.pulled = true) before) (member : id ∈ names)
    (ran : (pullEach settings remote known names).Yields before count after) :
    Taken settings id after := by
  induction names generalizing before known count with
  | nil => exact absurd member (by simp)
  | cons name rest inductionHypothesis =>
    obtain ⟨first, table, between, _, ranName, ranRest, _⟩ := yields_pullEach_cons.1 ran
    by_cases same : name = id
    · have there : before.disk.exists? (pulledPlace settings.target id) = true := by
        obtain ⟨record, found, isPulled⟩ := pulled
        rw [suits.target, ← Catalog.id_of_find? found]
        exact ((holds.1.foreign.found found).place isPulled).2.2
      rw [same] at ranName
      exact (supply_taken settings remote id).pullEach _ rest between _ _
        (taken_pullName pulled there ranName) ranRest
    · obtain ⟨still, moved, _⟩ := (governs_pullName firm suits store named
        (some_ name List.mem_cons_self) known before holds (referred name List.mem_cons_self)).1
          (first, table) between ranName
      refine inductionHypothesis (fun other among => some_ other (List.mem_cons_of_mem _ among))
        still (fun other among => ?_) ?_ ((List.mem_cons.1 member).resolve_left (Ne.symm same))
        ranRest
      · exact stable_referred before between moved (referred other (List.mem_cons_of_mem _ among))
      · exact (supply_pulled settings remote id).pullName known name before _ between pulled
          ranName

theorem taken_cycle {count : Nat} (strict : grounds.strict) (holds : grounds.regime.holds before)
    (pulled : Described id (fun record => record.pulled = true) before)
    (ran : (cycle settings remote).Yields before count after) : Taken settings id after := by
  obtain ⟨_, parsed, _, optimized, _, discovered, ranParse, ranOptimize, ranDiscover, ranPull⟩ :=
    yields_cycle.1 ran
  have ranEach := yields_pullAll.1 ranPull
  have supply := supply_pulled settings remote id
  have pulledParsed := supply.parseAll before _ parsed pulled ranParse
  have pulledOptimized :=
    supply.optimizeAll settings.target parsed _ optimized pulledParsed ranOptimize
  have pulledLast := supply.discoverAll optimized _ discovered pulledOptimized ranDiscover
  have holdsParsed := ((governs_parseAll firm suits before holds trivial).1 _ parsed ranParse).1
  rw [suits.target] at ranOptimize
  have holdsOptimized :=
    ((governs_optimizeAll firm parsed holdsParsed trivial).1 _ optimized ranOptimize).1
  have holdsLast :=
    ((governs_discoverAll firm optimized holdsOptimized trivial).1 _ discovered ranDiscover).1
  have member : id ∈ referredNames discovered.disk discovered.foreign := by
    obtain ⟨record, found, isPulled⟩ := pulledLast
    have referred := (holdsLast.1.foreign.found found).referred strict isPulled
    rw [Catalog.id_of_find? found] at referred
    exact referred.mem_referredNames holdsLast.1
  exact taken_pullEach firm suits store named
    (fun name among => (referred_of_names holdsLast.1 among).1) holdsLast
    (fun name among => (referred_of_names holdsLast.1 among).2) pulledLast member ranEach

end Returns

/-- Wherever a history of a project leads, an assembly that succeeds takes up again the sources
that were pulled, whatever the sources of the project hold. -/
theorem pulled_source_returns {sources target protocols : Path} {current : Location}
    {own : Location → Prop} (firm : (Grounds.strictly sources target protocols current own).Firm)
    (history : History (.strictly sources target protocols current own) before)
    (suits : (Grounds.strictly sources target protocols current own).Suits settings)
    (store : remote.KeepsTo own) (named : remote.KeepsNames) {answer : Assembly} {catalog : Catalog}
    {record : Record} (ran : (assemble settings remote).Yields before answer after)
    (opened : Catalog.openAt before.disk (catalogPath settings.target) = .ok catalog)
    (found : catalog.find? id = some record) (pulled : record.pulled = true) :
    Taken settings id after := by
  have open_ : ¬(Grounds.strictly sources target protocols current own).saving := fun wrong => wrong
  have steady := history.steady firm trivial open_
  obtain ⟨foreign, external, registered, openedForeign, openedExternal, ranRegister, ranSettle,
    _⟩ := yields_assemble_opened.1 ran
  have isCatalog : catalog = foreign := Except.ok.inj (opened.symm.trans openedForeign)
  have still : Described id (fun record => record.pulled = true) registered :=
    Described.enlisted ⟨record, isCatalog ▸ found, pulled⟩ (register_enlists ranRegister)
      fun _ _ isPulled => isPulled
  rw [suits.target] at openedForeign openedExternal
  have steadyStart : Steady (Grounds.strictly sources target protocols current own)
      { before with foreign := foreign, external := external } :=
    ⟨steady.grounded, steady.stored.opened steady.grounded.current openedForeign,
      (Catalog.openAt_ok openedExternal).1, steady.stored⟩
  have holds := ((governs_register firm suits (Or.inl trivial) _
    ⟨steadyStart, fun saving => absurd saving open_⟩
    ⟨fun _ _ saving => absurd saving open_, fun saving => absurd saving open_⟩).1 _ registered
      ranRegister).1
  cases bound : settings.maxCycles with
  | zero =>
    rw [bound] at ranSettle
    exact absurd ranSettle Step.yields_fail
  | succ left =>
    rw [bound] at ranSettle
    obtain ⟨fetched, between, ranCycle, rest⟩ := yields_settle.1 ranSettle
    have taken := taken_cycle firm suits store named trivial holds still ranCycle
    rcases rest with ⟨_, _, atEnd⟩ | ⟨_, others, ranRest, _⟩
    · rw [← atEnd]
      exact taken
    · exact (supply_taken settings remote id).settle left between others after taken ranRest

/-! ## A file that comes late -/

/-- The sample project, opened for the first time. -/
def freshStart : Workspace :=
  { sampleStart with
    foreign := ⟨catalogPath sampleSettings.target, []⟩
    external := ⟨sampleSettings.target.child Catalogs.externalFile, []⟩ }

/-- What the assembly of the project comes to. -/
def freshRun : Except Failure Unit × Workspace :=
  (Stage.assemble.run sampleSettings sampleRemote).perform freshStart

/-- A workspace where entries were added from outside. -/
def withEntries (entries : List (Location × Entry)) (present : Workspace) : Workspace :=
  { present with disk := { present.disk with entries := present.disk.entries ++ entries } }

/-- Entries may be added to a history where the disk stays a tree, but for the catalog file. -/
theorem History.withEntries {grounds : Grounds} {present : Workspace}
    {entries : List (Location × Entry)} (history : History grounds present)
    (grounded : Grounded grounds (withEntries entries present).disk)
    (other : entries.lookup ((catalogPath grounds.target).goal grounds.current) = none) :
    History grounds (withEntries entries present) := by
  have both : ∀ location, (Build.withEntries entries present).disk.entryAt? location =
      (present.disk.entryAt? location).or
        (if location = [] then none else entries.lookup location) := by
    intro location
    unfold Disk.entryAt? Build.withEntries
    split
    · rfl
    · exact List.lookup_append
  refine .between history ⟨grounded, fun location there => ?_, ?_⟩ rfl rfl
  · obtain ⟨entry, found⟩ := Option.ne_none_iff_exists'.1 there
    rw [both, found]
    rfl
  · rw [both, other, ite_self]
    exact Option.or_none

/-- The file of an object that was pulled, and the directories above it. -/
def lateEntries : List (Location × Entry) :=
  [(["w", "s", "org"], .directory), (["w", "s", "org", "eolang"], .directory),
    (["w", "s", "org", "eolang", "b.eo"], .file (.text "b"))]

/-- The project, when the file is added after the assembly. -/
def lateStart : Workspace := withEntries lateEntries freshRun.2

/-- The files of the project after that. -/
def lateFiles : List Path := [.ofText "a.eo", .ofText "org/eolang/b.eo"]

/-- Registering the files, and settling. -/
def lateSteps : Step (Nat × Nat) := do
  registerFiles sampleSettings lateFiles
  settle sampleSettings sampleRemote sampleSettings.maxCycles

/-- What they come to. -/
def lateRun : Except Failure (Nat × Nat) × Workspace := lateSteps.perform lateStart

/-- The files that stand in the sources then. -/
def lateContents : List (Location × FileContent) :=
  [(["a.eo"], .text "<program><objects><o base=\x22b\x22/></objects></program>"),
    (["org", "eolang", "b.eo"], .text "b")]

theorem late_facts :
    (lateStart.disk.directoryAt lateStart.disk.current = true ∧
      (∀ item ∈ lateStart.disk.entries, lateStart.disk.directoryAt item.1.dropLast = true) ∧
      lateStart.disk.WellNamed ∧ lateStart.disk.current = ["w"]) ∧
    (lateStart.disk.entry? (catalogPath sampleSettings.target) =
        some (.file (.text lateStart.foreign.render)) ∧
      (∀ record ∈ lateStart.foreign.records, record.Countable) ∧
      lateStart.disk.exists? (sampleSettings.target.child Catalogs.externalFile) = false ∧
      lateStart.external = ⟨sampleSettings.target.child Catalogs.externalFile, []⟩) ∧
    (lateStart.disk.isDirectory sampleSettings.sources = true ∧
      lateStart.disk.resolve? sampleSettings.sources = some ["w", "s"] ∧
      (lateStart.disk.entries.filterMap fun other =>
        match other.2 with
        | .file content =>
          if List.isPrefixOf ["w", "s"] other.1 then some (other.1.drop 2, content) else none
        | .directory => none) = lateContents) ∧
    (lateRun.1 = .ok (2, 0) ∧
      lateRun.2.foreign.records.map (fun record => (record.id, record.source)) =
        [("a", some (.ofText "s/a.eo")),
          ("org.eolang.b", some (.ofText "t/04-pull/org/eolang/b.eo"))]) ∧
    lateStart.foreign.records.map (fun record => (record.id, record.pulled)) =
      [("a", false), ("org.eolang.b", true)] := by
  decide +kernel

theorem registeredFiles_late : registeredFiles sampleSettings lateStart.disk = lateFiles := by
  obtain ⟨_, _, ⟨_, location, contents⟩, _⟩ := late_facts
  have below : lateStart.disk.filesBelow ["w", "s"] = lateContents := by
    unfold Disk.filesBelow
    refine (congrArg (fun files => List.mergeSort files _) contents).trans ?_
    exact List.mergeSort_of_pairwise (by decide)
  have files : filesIn lateStart.disk sampleSettings.sources = lateFiles := by
    unfold filesIn
    rw [location]
    show (lateStart.disk.filesBelow ["w", "s"]).map _ = lateFiles
    rw [below]
    rfl
  unfold registeredFiles selectedFiles
  rw [files]
  decide +kernel

theorem history_late : History sampleGrounds lateStart := by
  have nothing : freshStart.disk.entryAt?
      ((catalogPath sampleGrounds.target).goal sampleGrounds.current) = none := by decide
  have grounded : Grounded sampleGrounds freshStart.disk :=
    ⟨Disk.sound_of_entries (by decide) (by decide), by decide, rfl⟩
  have opened : Workspace.openIn freshStart.disk sampleGrounds.target "" = .ok freshStart := by rfl
  have history : History sampleGrounds freshRun.2 := by
    refine History.performed (.start grounded (fun text records stands => ?_) opened) .assemble
      ⟨rfl, rfl, rfl, fun _ => rfl⟩ (fetchOf_keepsTo _ _ _) (fun _ _ named => named)
    rw [nothing] at stands
    exact absurd stands (by simp)
  obtain ⟨⟨current, parents, names, isCurrent⟩, _⟩ := late_facts
  exact history.withEntries ⟨Disk.sound_of_entries current parents, names, isCurrent⟩ (by decide)

theorem opened_late : Catalog.openAt lateStart.disk (catalogPath sampleSettings.target) =
    .ok lateStart.foreign := by
  obtain ⟨_, ⟨stands, countable, _⟩, _⟩ := late_facts
  have upheld := (history_late.steady firm_sample trivial id).foreign
  have path : lateStart.foreign.path = catalogPath sampleSettings.target := upheld.path
  rw [← path] at stands ⊢
  exact Catalog.openAt_stands upheld.sorted
    (fun record member => (upheld.records record member).textual firm_sample) countable stands

/-- The assembly of the project with the file. -/
theorem late_assembled : (assemble sampleSettings sampleRemote).Yields lateStart
    ⟨2, 2, 0, lateRun.2.foreign.size⟩ lateRun.2 := by
  obtain ⟨_, ⟨_, _, missing, isExternal⟩, ⟨isDirectory, _, _⟩, ⟨outcome, _⟩, _⟩ := late_facts
  have openedExternal : Catalog.openAt lateStart.disk
      (sampleSettings.target.child Catalogs.externalFile) = .ok lateStart.external := by
    rw [Catalog.openAt_missing missing, isExternal]
  have ran : lateSteps.Yields lateStart (2, 0) lateRun.2 := Step.yields_perform outcome
  obtain ⟨_, registered, ranFiles, ranSettle⟩ := Step.yields_bind.1 ran
  rw [← registeredFiles_late] at ranFiles
  refine assemble_opened opened_late openedExternal
    (yields_register.2 ⟨isDirectory, ⟨_, rfl⟩, ⟨_, rfl⟩, ?_, ranFiles⟩) ranSettle
  rw [registeredFiles_late]
  rfl

theorem distinct_late : (registeredIds sampleSettings lateStart.disk).Nodup := by
  unfold registeredIds
  rw [registeredFiles_late]
  decide

/-- The file comes too late: the source that was pulled goes before it. -/
theorem late_source_loses :
    ¬∀ (settings : Settings) (remote : Remote) (before after : Workspace) (answer : Assembly)
      (file : Path), settings.strictNames = true →
      History (.strictly settings.sources settings.target settings.protocols ["w"] fun _ => False)
        before → (assemble settings remote).Yields before answer after →
      (registeredIds settings before.disk).Nodup → file ∈ registeredFiles settings before.disk →
      ∃ record, after.foreign.find? (idOf file) = some record ∧
        record.source = some (settings.sources.join file) := by
  intro wins
  have selected : .ofText "org/eolang/b.eo" ∈ registeredFiles sampleSettings lateStart.disk := by
    rw [registeredFiles_late]
    exact List.mem_cons_of_mem _ List.mem_cons_self
  obtain ⟨record, found, isSource⟩ := wins sampleSettings sampleRemote lateStart lateRun.2 _ _ rfl
    history_late late_assembled distinct_late selected
  obtain ⟨_, _, _, ⟨_, sources⟩, _⟩ := late_facts
  have sameId : record.id = idOf (.ofText "org/eolang/b.eo") := Catalog.id_of_find? found
  have among : (record.id, record.source) ∈
      lateRun.2.foreign.records.map (fun record => (record.id, record.source)) :=
    List.mem_map_of_mem (Catalog.mem_of_find? found)
  rw [sources, sameId, isSource] at among
  exact absurd among (by decide)

/-- The other object of the project keeps its file. -/
theorem sample_source_wins : (assemble sampleSettings sampleRemote).Yields lateStart
      ⟨2, 2, 0, lateRun.2.foreign.size⟩ lateRun.2 ∧
    (∃ record, lateRun.2.foreign.find? (idOf (.ofText "a.eo")) = some record ∧
      record.source = some (sampleSettings.sources.join (.ofText "a.eo"))) ∧
    ∃ gained, lateRun.2.journal = lateStart.journal ++ gained ∧
      .source (idOf (.ofText "a.eo")) ∉ gained := by
  have selected : .ofText "a.eo" ∈ registeredFiles sampleSettings lateStart.disk := by
    rw [registeredFiles_late]
    exact List.mem_cons_self
  refine ⟨late_assembled, local_source_wins late_assembled opened_late distinct_late selected ?_⟩
  intro record found
  obtain ⟨_, _, _, _, marks⟩ := late_facts
  have sameId : record.id = idOf (.ofText "a.eo") := Catalog.id_of_find? found
  have among : (record.id, record.pulled) ∈
      lateStart.foreign.records.map (fun record => (record.id, record.pulled)) :=
    List.mem_map_of_mem (Catalog.mem_of_find? found)
  rw [marks, sameId] at among
  cases pulled : record.pulled with
  | false => rfl
  | true =>
    rw [pulled] at among
    exact absurd among (by decide)

end EoAssembly.Build
