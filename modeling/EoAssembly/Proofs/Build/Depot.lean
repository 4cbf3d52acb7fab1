import EoAssembly.Proofs.Build.Confined
import EoAssembly.Proofs.Build.Chosen
import EoAssembly.Proofs.Catalog.Editing

/-!
Contract: the sources and the logs that pulls keep, wherever they stop.

A pull may stop between any two of its writes.  What stands at the place of a log is then
a log of the source, what the catalog marks as pulled, in memory or in its file, has its
source at its place, and only the write of a source or of its log changes what stands at
either.

Owns `Depot`, `Depot.Tidy`, and what each operation of a pull does to a tidy workspace.

Does not own: which sources have their logs.
-/

namespace EoAssembly

/-- A write that may fail makes directories above its goal at most, beside the file itself. -/
theorem Document.writeBelow_spares {disk next : Disk} {path : Path} {text : String}
    {outcome : Except Failure Unit} {location : Location} (sound : disk.Sound)
    (ends : path.EndsInName) (passable : disk.Passable path)
    (ran : writeBelow disk path text = (outcome, next))
    (other : location ≠ path.goal disk.current ∨ ∃ failure, outcome = .error failure) :
    next.entryAt? location = disk.entryAt? location ∨
      (location <+: path.goal disk.current ∧ location ≠ path.goal disk.current ∧
        disk.entryAt? location = none ∧ next.entryAt? location = some .directory) := by
  obtain ⟨made, touches, _, isMade, failed⟩ := writeBelow_any sound ran
  have same : next.entryAt? location = disk.entryAt? location ∨
      (location ∈ made ∧ disk.entryAt? location = none ∧
        next.entryAt? location = some .directory) := by
    rcases other with apart | ⟨failure, isFailure⟩
    · exact touches.others location (by simpa using apart) (by simp)
    · exact (failed failure isFailure).others location (by simp) (by simp)
  apply same.imp_right
  rintro ⟨reached, nothing, directory⟩
  obtain ⟨before, name, split, plain⟩ := ends
  obtain ⟨parent, _, components⟩ := Path.parent?_of_name split plain
  have named : path.components = parent.components ++ [name].map Path.Component.named := components
  have onParent : location ∈ parent.way disk.current := by
    rw [isMade ⟨before, name, split, plain⟩] at reached
    unfold Path.above at reached
    rw [components, List.dropLast_concat] at reached
    exact reached
  rw [Path.goal_of_names disk.current named]
  rcases Path.way_onward onParent with above | ⟨passed, left, below⟩
  · refine ⟨above.trans (List.prefix_append _ _), fun wrong => ?_, nothing, directory⟩
    have short := above.length_le
    rw [wrong, List.length_append, List.length_singleton] at short
    omega
  · rw [← Path.left_of_names disk.current named] at left
    have there := sound.directory_above (passable passed left) below
    rw [Disk.directoryAt_iff, nothing] at there
    exact absurd there (by simp)

namespace Build

open Disk (Touches)
open ObjectName (Placeable checkPlace placeable_of_checkPlace)

/-! ## What is marked as pulled -/

/-- A catalog marks an object as pulled, from a source. -/
def MarksPulled (catalog : Catalog) (id : String) (origin : Option Path) : Prop :=
  ∃ record, catalog.find? id = some record ∧ record.pulled = true ∧ record.source = origin

/-- The catalog in memory marks an object as pulled, or the one in the catalog file does. -/
def Credited (present : Workspace) (id : String) (origin : Option Path) : Prop :=
  MarksPulled present.foreign id origin ∨
    ∃ stored, Catalog.openAt present.disk present.foreign.path = .ok stored ∧
      MarksPulled stored id origin

/-- Some file stands at a location. -/
def FileAt (disk : Disk) (location : Location) : Prop :=
  ∃ content, disk.entryAt? location = some (.file content)

variable {catalog : Catalog} {disk next : Disk} {before after present start : Workspace}
  {id name other text : String} {origin : Option Path} {location : Location} {record : Record}

theorem FileAt.congr (same : next.entryAt? location = disk.entryAt? location) :
    FileAt next location ↔ FileAt disk location := by
  unfold FileAt
  rw [same]

theorem FileAt.not_directory (file : FileAt disk location) : disk.directoryAt location = false := by
  obtain ⟨content, stands⟩ := file
  exact Disk.directoryAt_of_file stands

/-- A fresh record marks nothing. -/
theorem MarksPulled.of_put_ofId (marks : MarksPulled (catalog.put (.ofId name)) id origin) :
    MarksPulled catalog id origin := by
  obtain ⟨record, found, pulled, isSource⟩ := marks
  by_cases same : (Record.ofId name).id = id
  · rw [← same, Catalog.find?_put_same] at found
    rw [← Option.some.inj found] at pulled
    exact absurd pulled (by simp [Record.ofId])
  · rw [Catalog.find?_put_other catalog same] at found
    exact ⟨record, found, pulled, isSource⟩

/-- A record in a catalog marks its own object, and the others are marked as before. -/
theorem MarksPulled.of_put (marks : MarksPulled (catalog.put record) id origin) :
    MarksPulled catalog id origin ∨
      record.id = id ∧ record.pulled = true ∧ record.source = origin := by
  obtain ⟨other, found, pulled, isSource⟩ := marks
  by_cases same : record.id = id
  · rw [← same, Catalog.find?_put_same] at found
    rw [← Option.some.inj found] at pulled isSource
    exact Or.inr ⟨same, pulled, isSource⟩
  · rw [Catalog.find?_put_other catalog same] at found
    exact Or.inl ⟨other, found, pulled, isSource⟩

/-- Where a catalog was to be written, its file holds it or what it held before. -/
theorem Credited.of_persist {outcome : Except Failure Unit} (sound : before.disk.Sound)
    (fit : catalog.Fit) (housed : Catalog.Housed catalog.path before.disk.current)
    (isPath : catalog.path = before.foreign.path) (passable : before.disk.Passable catalog.path)
    (ran : catalog.persist before.disk = (outcome, next))
    (credited : Credited { before with foreign := catalog, disk := next } id origin) :
    MarksPulled catalog id origin ∨ Credited before id origin := by
  rcases credited with marks | ⟨stored, opened, marks⟩
  · exact Or.inl marks
  · cases outcome with
    | ok value =>
      have opens := Catalog.openAt_persisted sound fit housed.written ran
      exact Or.inl (Except.ok.inj (opened.symm.trans opens) ▸ marks)
    | error failure =>
      have same := Catalog.persist_refused sound housed ran
      have touches := Catalog.touches_persist sound housed.ends ran
      refine Or.inr (Or.inr ⟨stored, ?_, marks⟩)
      rw [← opened, ← isPath]
      refine (Catalog.openAt_congr ?_).symm
      exact Disk.entry_congr touches.current
        ⟨fun _ => passable, fun _ => touches.passable passable⟩ same

/-! ## Depots -/

/-- Where pulls of a project keep their files, and the names that they see to. -/
structure Depot where
  settings : Settings
  current : Location
  /-- What the store keeps for itself. -/
  own : Location → Prop
  names : String → Prop

namespace Depot

variable {depot : Depot}

/-- The catalog file. -/
def file (depot : Depot) : Path := catalogPath depot.settings.target

/-- Where the source of an object is. -/
def source (depot : Depot) (name : String) : Path := pulledPlace depot.settings.target name

/-- Where the log of an object is. -/
def log (depot : Depot) (name : String) : Path := logPlace depot.settings.protocols name

/-- The file of a source. -/
def sourceSpot (depot : Depot) (name : String) : Location :=
  (depot.source name).goal depot.current

/-- The file of a log. -/
def logSpot (depot : Depot) (name : String) : Location := (depot.log name).goal depot.current

/-- The directories are apart, also from what the store keeps, every name passes the check of
places, and names whose files meet share both. -/
structure Firm (depot : Depot) : Prop where
  written : depot.settings.target.IsText
  housed : Catalog.Housed depot.file depot.current
  target : ¬depot.settings.target.goal depot.current <+: depot.settings.protocols.goal depot.current
  protocols :
    ¬depot.settings.protocols.goal depot.current <+: depot.settings.target.goal depot.current
  store : StoreApart depot.settings depot.current depot.own
  checked : ∀ name, depot.names name → checkPlace name = .ok ()
  hasFile : ∀ name, depot.names name → HasFile name
  shared : ∀ name other, depot.names name → depot.names other →
    depot.sourceSpot name <+: depot.sourceSpot other ∨ depot.logSpot name <+: depot.logSpot other →
    depot.source name = depot.source other ∧ depot.log name = depot.log other

namespace Firm

variable (firm : depot.Firm)

include firm

theorem placeable (known : depot.names name) : Placeable name :=
  placeable_of_checkPlace (firm.checked name known)

/-- Nothing is both below the target and below the protocols directory. -/
theorem disjoint_directories (target : depot.settings.target.goal depot.current <+: location)
    (protocols : depot.settings.protocols.goal depot.current <+: location) : False :=
  (List.prefix_or_prefix_of_prefix target protocols).elim firm.target firm.protocols

/-- A file directly in the target is neither in the directory of pulled sources nor among the
logs. -/
theorem not_guarded {file : String} (plain : file ≠ pulledDirectory) :
    ¬Guarded depot.settings depot.current (depot.settings.target.goal depot.current ++ [file]) := by
  rintro (pulled | logged)
  · rw [goal_pulledDirectory] at pulled
    have names := (List.prefix_append_right_inj _).1 pulled
    exact plain (List.cons_prefix_cons.1 names).1.symm
  · exact firm.disjoint_directories (List.prefix_append _ _) logged

theorem disjoint : Disjoint depot.settings depot.own depot.file depot.current where
  target := firm.target
  protocols := firm.protocols
  catalog := by
    unfold file
    rw [goal_catalogPath]
    exact firm.not_guarded (by decide)
  sibling := by
    have goal := goal_siblingPath firm.written depot.current
    unfold siblingPath at goal
    unfold file
    rw [goal]
    exact firm.not_guarded (by decide)
  store location owned := by
    obtain ⟨leftTarget, leftProtocols, target, protocols⟩ := firm.store location owned
    refine ⟨?_, leftTarget, leftProtocols, ?_⟩
    · rintro (pulled | logged)
      · rw [goal_pulledDirectory] at pulled
        exact target ((List.prefix_append _ _).trans pulled)
      · exact protocols logged
    · unfold file
      rw [left_catalogPath]
      exact leftTarget

/-- A file directly in the target is on the way neither to a source nor to a log. -/
theorem not_on_way {file : String} (plain : file ≠ pulledDirectory) (known : depot.names name) :
    ¬depot.settings.target.goal depot.current ++ [file] <+: depot.sourceSpot name ∧
      ¬depot.settings.target.goal depot.current ++ [file] <+: depot.logSpot name := by
  have placeable := firm.placeable known
  constructor
  · unfold sourceSpot source
    rw [goal_pulledPlace depot.settings depot.current placeable]
    intro above
    have names := (List.prefix_append_right_inj _).1 above
    exact plain (List.cons_prefix_cons.1 names).1
  · unfold logSpot log
    rw [goal_logPlace depot.settings depot.current placeable]
    exact fun above => firm.disjoint_directories ((List.prefix_append _ _).trans above)
      (List.prefix_append _ _)

theorem guarded_source (known : depot.names name) :
    Guarded depot.settings depot.current (depot.sourceSpot name) :=
  guarded_pulledPlace (firm.placeable known)

theorem guarded_log (known : depot.names name) :
    Guarded depot.settings depot.current (depot.logSpot name) :=
  guarded_logPlace (firm.placeable known)

/-- No source is on the way to a log, and no log on the way to a source. -/
theorem source_apart_log (known : depot.names name) (knownOther : depot.names other) :
    ¬depot.sourceSpot name <+: depot.logSpot other ∧
      ¬depot.logSpot other <+: depot.sourceSpot name :=
  Build.source_apart_log firm.disjoint (firm.placeable known) (firm.placeable knownOther)

end Firm

/-! ## Tidy workspaces -/

/-- What is marked as pulled has its source at its place, no directory is in the place of a
source or a log, and what stands at the place of a log is one. -/
structure Tidy (depot : Depot) (present : Workspace) : Prop where
  walkable : Walkable depot.settings depot.file depot.current present
  fit : present.foreign.Fit
  credited : ∀ id origin, Credited present id origin →
    depot.names id ∧ origin = some (depot.source id) ∧ FileAt present.disk (depot.sourceSpot id)
  noDirectory : ∀ name, depot.names name →
    present.disk.directoryAt (depot.sourceSpot name) = false ∧
      present.disk.directoryAt (depot.logSpot name) = false
  logged : ∀ name, depot.names name → ∀ content,
    present.disk.entryAt? (depot.logSpot name) = some (.file content) →
      ∃ instant, content = .text (logText (depot.source name) instant)

/-- A tidy workspace comes of one where nothing happened to the sources and the logs, and no
source was asked for. -/
structure Leads (depot : Depot) (before after : Workspace) : Prop where
  tidy : depot.Tidy after
  files : ∀ location, Guarded depot.settings depot.current location →
    after.disk.entryAt? location = before.disk.entryAt? location
  asked : sourcesAsked after.journal = sourcesAsked before.journal

namespace Tidy

/-- Where the sources and the logs are as they were, a workspace stays tidy when nothing is newly
marked but objects whose sources are there. -/
theorem same (firm : depot.Firm) (tidy : depot.Tidy before)
    (walkable : Walkable depot.settings depot.file depot.current after) (fit : after.foreign.Fit)
    (files : ∀ location, Guarded depot.settings depot.current location →
      after.disk.entryAt? location = before.disk.entryAt? location)
    (credited : ∀ id origin, Credited after id origin → Credited before id origin ∨
      depot.names id ∧ origin = some (depot.source id) ∧
        FileAt before.disk (depot.sourceSpot id)) : depot.Tidy after := by
  refine ⟨walkable, fit, fun id origin marks => ?_, fun name known => ?_, fun name known => ?_⟩
  · obtain ⟨known, isSource, stands⟩ := (credited id origin marks).elim (tidy.credited id origin) fun new => new
    exact ⟨known, isSource, (FileAt.congr (files _ (firm.guarded_source known))).2 stands⟩
  · rw [Disk.directoryAt_congr (files _ (firm.guarded_source known)),
      Disk.directoryAt_congr (files _ (firm.guarded_log known))]
    exact tidy.noDirectory name known
  · rw [files _ (firm.guarded_log known)]
    exact tidy.logged name known

/-- The catalog file opens as before when what stands there is the same. -/
theorem opens_same (tidy : depot.Tidy before)
    (walkable : Walkable depot.settings depot.file depot.current after)
    (same : after.disk.entryAt? (depot.file.goal depot.current) =
      before.disk.entryAt? (depot.file.goal depot.current)) :
    Catalog.openAt after.disk after.foreign.path = Catalog.openAt before.disk before.foreign.path := by
  rw [walkable.path, tidy.walkable.path]
  apply Catalog.openAt_congr
  apply Disk.entry_congr (walkable.current.trans tidy.walkable.current.symm)
  · exact ⟨fun _ => tidy.walkable.catalog, fun _ => walkable.catalog⟩
  · rw [tidy.walkable.current]
    exact same

/-- What is marked stays when neither the catalog nor its file changes. -/
theorem credited_same (tidy : depot.Tidy before)
    (walkable : Walkable depot.settings depot.file depot.current after)
    (foreign : after.foreign = before.foreign)
    (same : after.disk.entryAt? (depot.file.goal depot.current) =
      before.disk.entryAt? (depot.file.goal depot.current)) (credited : Credited after id origin) :
    Credited before id origin := by
  unfold Credited at credited
  rw [tidy.opens_same walkable same, foreign] at credited
  exact credited

end Tidy

/-! ## Operations beside the sources and the logs -/

theorem leads_persist (firm : depot.Firm) (tidy : depot.Tidy before)
    (isPath : catalog.path = before.foreign.path) (fit : catalog.Fit)
    (marks : ∀ id origin, MarksPulled catalog id origin → Credited before id origin ∨
      depot.names id ∧ origin = some (depot.source id) ∧ FileAt before.disk (depot.sourceSpot id))
    {outcome : Except Failure Unit} (ran : catalog.persist before.disk = (outcome, next)) :
    depot.Leads before { before with foreign := catalog, disk := next } := by
  have isFile : catalog.path = depot.file := isPath.trans tidy.walkable.path
  obtain ⟨walkable, quiet⟩ := tidy.walkable.persist firm.disjoint fit.sorted isFile
    firm.housed.ends ran
  have housed : Catalog.Housed catalog.path before.disk.current := by
    rw [isFile, tidy.walkable.current]
    exact firm.housed
  refine ⟨tidy.same firm walkable fit quiet.files fun id origin credited => ?_, quiet.files, rfl⟩
  rcases credited.of_persist tidy.walkable.sound fit housed isPath
    (isFile ▸ tidy.walkable.catalog) ran with ofMemory | ofFile
  · exact marks id origin ofMemory
  · exact Or.inl ofFile

theorem leads_addForeign (firm : depot.Firm) (tidy : depot.Tidy before)
    {outcome : Except Failure Record} (ran : (Step.addForeign name).perform before = (outcome, after)) :
    depot.Leads before after := by
  obtain ⟨catalog, disk, added, rfl⟩ := Step.perform_addForeign ran
  rcases Catalog.add_any added with ⟨_, _, _, rfl, rfl⟩ | ⟨_, rfl, _, persisted, _⟩
  · exact ⟨tidy, fun _ _ => rfl, rfl⟩
  · apply leads_persist firm tidy Catalog.path_put (tidy.fit.put (Record.storable_ofId name)) _ persisted
    exact fun id origin marks => Or.inl (Or.inl marks.of_put_ofId)

/-- A change of a record marks nothing new but an object whose source is there. -/
theorem leads_updateForeign (firm : depot.Firm) (tidy : depot.Tidy before)
    {change : Record → Record} (storable : ∀ record : Record, record.Storable → (change record).Storable)
    (marks : ∀ record, (change record).pulled = true →
      (record.pulled = true ∧ (change record).source = record.source) ∨
      depot.names name ∧ (change record).source = some (depot.source name) ∧
        FileAt before.disk (depot.sourceSpot name))
    {outcome : Except Failure Record}
    (ran : (Step.updateForeign name change).perform before = (outcome, after)) :
    depot.Leads before after := by
  obtain ⟨catalog, disk, updated, rfl⟩ := Step.perform_updateForeign ran
  cases found : before.foreign.find? name with
  | none =>
    rw [Catalog.update_missing found] at updated
    obtain ⟨rfl, rfl⟩ := Prod.mk.inj (Prod.mk.inj updated).2
    exact ⟨tidy, fun _ _ => rfl, rfl⟩
  | some record =>
    have stored := tidy.fit.storable record (Catalog.mem_of_find? found)
    have fit := tidy.fit.put ((storable record stored).withId name)
    have marksNew : ∀ id origin,
        MarksPulled (before.foreign.put { change record with id := name }) id origin →
        Credited before id origin ∨ depot.names id ∧ origin = some (depot.source id) ∧
          FileAt before.disk (depot.sourceSpot id) := by
      intro id origin marked
      rcases marked.of_put with ofOther | ⟨rfl, pulled, isOrigin⟩
      · exact Or.inl (Or.inl ofOther)
      · rcases marks record pulled with ⟨wasPulled, same⟩ | ⟨known, isSource, stands⟩
        · exact Or.inl (Or.inl ⟨record, found, wasPulled, same.symm.trans isOrigin⟩)
        · exact Or.inr ⟨known, isOrigin.symm.trans isSource, stands⟩
    obtain ⟨rfl, ⟨_, rfl, _⟩ | ⟨_, _, persisted, _⟩⟩ := Catalog.update_any found updated
    · have walkable : Walkable depot.settings depot.file depot.current
          { before with foreign := before.foreign.put { change record with id := name } } :=
        ⟨tidy.walkable.sound, tidy.walkable.current, fit.sorted, tidy.walkable.path,
          tidy.walkable.target, tidy.walkable.protocols, tidy.walkable.catalog⟩
      refine ⟨tidy.same firm walkable fit (fun _ _ => rfl) fun id origin credited => ?_,
        fun _ _ => rfl, rfl⟩
      rcases credited with ofMemory | ofFile
      · exact marksNew id origin ofMemory
      · exact Or.inl (Or.inr ofFile)
    · exact leads_persist firm tidy Catalog.path_put fit marksNew persisted

theorem leads_parse (tidy : depot.Tidy before) {remote : Remote} {outcome : Except Failure String}
    (ran : (Step.parse remote name text).perform before = (outcome, after)) :
    depot.Leads before after := by
  obtain ⟨_, rfl⟩ := Prod.mk.inj ran
  refine ⟨⟨?_, tidy.fit, tidy.credited, tidy.noDirectory, tidy.logged⟩, fun _ _ => rfl, ?_⟩
  · exact ⟨tidy.walkable.sound, tidy.walkable.current, tidy.walkable.sorted, tidy.walkable.path,
      tidy.walkable.target, tidy.walkable.protocols, tidy.walkable.catalog⟩
  · simp [sourcesAsked]

/-- A document is written beside the sources, the logs and the catalog. -/
theorem leads_save (firm : depot.Firm) (tidy : depot.Tidy before) (placeable : Placeable name)
    {document : Document} {outcome : Except Failure Unit}
    (ran : (Step.save document (parsedPlace depot.settings.target name)).perform before =
      (outcome, after)) : depot.Leads before after := by
  obtain ⟨disk, saved, rfl⟩ := Step.perform_onDisk ran
  unfold Document.save at saved
  cases rendered : document.render with
  | error failure =>
    rw [rendered] at saved
    rw [← (Prod.mk.inj saved).2]
    exact ⟨tidy, fun _ _ => rfl, rfl⟩
  | ok text =>
    rw [rendered] at saved
    have components : (parsedPlace depot.settings.target name).components = _ :=
      components_stage isName_parsed isExtension_document placeable depot.settings.target
    have ends : (parsedPlace depot.settings.target name).EndsInName :=
      endsInName_stage isName_parsed isExtension_document placeable depot.settings.target
    have passable : before.disk.Passable (parsedPlace depot.settings.target name) :=
      (Disk.passable_of_names components).2 tidy.walkable.target
    obtain ⟨made, touches, _⟩ := Document.writeBelow_any tidy.walkable.sound saved
    have walkable := tidy.walkable.touch touches
    have elsewhere : ∀ location,
        ¬location <+: (parsedPlace depot.settings.target name).goal depot.current →
        disk.entryAt? location = before.disk.entryAt? location := by
      intro location apart
      rw [← tidy.walkable.current] at apart
      have spared := Document.writeBelow_spares tidy.walkable.sound ends passable saved
        (Or.inl fun same => apart (same ▸ List.prefix_rfl))
      exact spared.resolve_right fun wrong => apart wrong.1
    have files : ∀ location, Guarded depot.settings depot.current location →
        disk.entryAt? location = before.disk.entryAt? location := fun location guarded =>
      elsewhere location fun above => not_guarded_parsed firm.disjoint placeable (guarded.below above)
    refine ⟨tidy.same firm walkable tidy.fit files fun id origin credited => Or.inl ?_, files, rfl⟩
    apply tidy.credited_same walkable rfl (elsewhere _ fun above => ?_) credited
    unfold file at above
    rw [goal_catalogPath, Path.goal_of_names depot.current components] at above
    have names := (List.prefix_append_right_inj _).1 above
    exact absurd (List.cons_prefix_cons.1 names).1 (by decide)

end Depot

end Build

end EoAssembly
