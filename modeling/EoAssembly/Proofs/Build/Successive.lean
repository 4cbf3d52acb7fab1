import EoAssembly.Proofs.Build.Answering
import EoAssembly.Proofs.Build.Enlisting

/-!
Contract: builds on a site follow each other.

A build opens the catalogs that the one before left, whether that one ended or stopped,
registers the same files again, and goes on from what stands.  Where it ends the disk and
the catalogs are as they may be on the site, and so is what it leaves where it stops.

Owns the traversal of registering and of whole builds.
-/

namespace EoAssembly

namespace Step

variable {α β : Type} {step : Step α} {next : α → Step β} {before after : Workspace}
  {failure : Failure}

theorem fails_perform (failed : (step.perform before).1 = .error failure) :
    step.perform before = (.error failure, (step.perform before).2) :=
  Prod.ext failed rfl

/-- Steps one after the other fail where the first does, or else where the second does. -/
theorem fails_bind (ran : (step >>= next).perform before = (.error failure, after)) :
    step.perform before = (.error failure, after) ∨ ∃ value between,
      step.Yields before value between ∧ (next value).perform between = (.error failure, after) := by
  rcases ends_bind ran with ⟨cause, failed, same⟩ | later
  · exact Or.inl (Except.error.inj same ▸ failed)
  · exact Or.inr later

end Step

namespace Build

open Path (IsName)

/-- Opening catalogs changes nothing where it fails. -/
theorem reopen_fails {directory : Path} {before after : Workspace} {failure : Failure}
    (ran : (Workspace.reopen directory).perform before = (.error failure, after)) :
    after = before := by
  unfold Workspace.reopen at ran
  rw [Step.perform_ofAction] at ran
  split at ran
  · exact absurd (Prod.mk.inj ran).1 (by simp)
  · exact (Prod.mk.inj ran).2.symm

namespace Site

variable {site : Site} {before after present : Workspace} {disk : Disk} {file : Path}
  {settings : Settings} {remote : Remote}

/-! ## Registering -/

/-- Where a build starts, the files to register are those of the site, and on flawless
grounds nothing speaks against them. -/
structure Selects (site : Site) (settings : Settings) (disk : Disk) : Prop where
  files : registeredFiles settings disk = site.files
  directory : site.flawless → disk.isDirectory settings.sources = true
  included : site.flawless → ∃ included, Settings.patterns settings.included = .ok included
  excluded : site.flawless → ∃ excluded, Settings.patterns settings.excluded = .ok excluded
  strict : site.flawless → settings.strictNames = true → ∀ file ∈ site.files, checkName file = .ok ()

section Stages

variable (firm : site.Firm) (suits : site.Suits settings remote)

include firm suits

theorem governs_registerFile (member : file ∈ site.files)
    (checked : site.flawless → settings.strictNames = true → checkName file = .ok ()) :
    (site.regime False).Governs (fun _ => True) (registerFile settings file) fun _ _ => True := by
  have registers : site.Registers (idOf file) := List.mem_map_of_mem member
  have exported : settings.withVersions = true → (site.regime False).Governs (fun _ => True)
      (do let _ ← Step.addExternal (idOf file)
          let _ ← Step.updateExternal (idOf file)
            (asExported (site.sourcePath file) settings.project.version)) fun _ _ => True := by
    intro versions
    rw [suits.versions] at versions
    exact .bind (governs_addExternal firm (fun _ => True) registers versions) fun record =>
      .bind ((governs_export firm (fun _ => True) registers versions
        (isLocal firm member) suits.project).from_ fun _ _ told => ⟨trivial, record, told.2⟩) fun _ =>
          .pure fun _ _ _ => trivial
  have registered : (site.regime False).Governs (fun _ => True)
      (do let _ ← Step.addForeign (idOf file)
          let _ ← Step.updateForeign (idOf file) (asRegistered (site.sourcePath file))
          if settings.withVersions then
            let _ ← Step.addExternal (idOf file)
            let _ ← Step.updateExternal (idOf file)
              (asExported (site.sourcePath file) settings.project.version)) fun _ _ => True := by
    refine .bind ((governs_add firm (firm.roots file member) (fun _ => True) trivial).from_
      fun _ _ _ _ _ => trivial) fun record => .bind ((governs_change firm).from_
        fun present working told => ?_) fun _ => .ite (fun versions => (exported versions).from_
          fun _ _ _ => trivial) fun _ => .pure fun _ _ _ => trivial
    have found := told.1
    have sameId := Catalog.id_of_find? found
    refine ⟨record, found, ?_⟩
    rw [← sameId] at found
    exact allowed_registered (working.tells.found found) found firm member sameId.symm
  unfold registerFile
  rw [suits.sources]
  refine .ite (fun strict => .bind (governs_outcome fun flawless _ _ _ =>
    ⟨(), checked flawless strict⟩) fun _ => registered.from_ fun _ _ _ => trivial) fun _ => registered

theorem governs_registerFiles (files : List Path) : (∀ file ∈ files, file ∈ site.files) →
    (site.flawless → settings.strictNames = true → ∀ file ∈ files, checkName file = .ok ()) →
    (site.regime False).Governs (fun _ => True) (registerFiles settings files) fun _ _ => True := by
  induction files with
  | nil => exact fun _ _ => .pure fun _ _ _ => trivial
  | cons file rest inductionHypothesis =>
    exact fun member checked => .bind (governs_registerFile firm suits (member file List.mem_cons_self)
      fun flawless strict => checked flawless strict file List.mem_cons_self) fun _ =>
        inductionHypothesis (fun other behind => member other (List.mem_cons_of_mem file behind))
          fun flawless strict other behind => checked flawless strict other
            (List.mem_cons_of_mem file behind)

theorem governs_register :
    (site.regime False).Governs (fun present => site.Selects settings present.disk)
      (register settings) fun _ _ => True := by
  refine .start fun start working selects => ?_
  unfold register
  refine .bind governs_look fun disk => .given (fun same : disk = start.disk => ?_)
    fun present _ told => by rw [told.1, told.2]
  subst same
  have rest : (site.regime False).Governs (fun _ => True)
      (do let included ← Step.ofOutcome (Settings.patterns settings.included)
          let excluded ← Step.ofOutcome (Settings.patterns settings.excluded)
          let files := selectedFiles start.disk settings.sources included excluded
          registerFiles settings files
          pure files.length) fun _ _ => True := by
    refine .bind (governs_outcome fun flawless _ _ _ => selects.included flawless) fun included =>
      .given (fun isIncluded : Settings.patterns settings.included = .ok included => ?_)
        fun _ _ told => told.1
    refine .bind (governs_outcome fun flawless _ _ _ => selects.excluded flawless) fun excluded =>
      .given (fun isExcluded : Settings.patterns settings.excluded = .ok excluded => ?_)
        fun _ _ told => told.1
    have same : selectedFiles start.disk settings.sources included excluded = site.files := by
      rw [← selects.files]
      unfold registeredFiles
      rw [isIncluded, isExcluded]
    rw [same]
    exact .bind ((governs_registerFiles firm suits site.files (fun _ member => member)
      selects.strict).from_ fun _ _ _ => trivial) fun _ => .pure fun _ _ _ => trivial
  refine .ite (fun missing => .bind (.fail fun present working _ => ⟨fun flawless => ?_,
    Working.resumable working⟩) fun _ => rest) fun _ => rest.from_ fun _ _ _ => trivial
  rw [selects.directory flawless] at missing
  exact absurd missing (by simp)

omit firm in
/-- Once all files are registered, each object of one has its last file as source. -/
theorem Working.enroll {count : Nat} (working : site.Working False after)
    (selects : site.Selects settings before.disk)
    (ran : (register settings).Yields before count after) : site.Working True after := by
  refine { working with enrolled := fun _ id file last => ?_ }
  have noted := (register_enlists ran).foreign id
  rw [selects.files, last] at noted
  refine ⟨_, noted, ?_⟩
  rw [Site.sourcePath, ← suits.sources]
  rfl

/-! ## Cycles -/

theorem governs_cycle :
    (site.regime True).Governs (fun _ => True) (cycle settings remote) fun _ _ => True := by
  unfold cycle
  rw [suits.target]
  refine .bind (governs_parseAll firm suits) fun _ => .bind (governs_optimizeAll firm) fun _ =>
    .bind (governs_discoverAll firm) fun _ => ?_
  exact .start fun start _ _ => (governs_pullAll firm suits).telling fun _ _ _ _ => trivial

theorem governs_settle (flawed : ¬site.flawless) (bound : Nat) :
    (site.regime True).Governs (fun _ => True) (settle settings remote bound) fun _ _ => True := by
  induction bound with
  | zero => exact .fail fun _ working _ => ⟨flawed, Working.resumable working⟩
  | succ left inductionHypothesis =>
    refine .bind governs_look fun start => .bind ((governs_cycle firm suits).from_
      fun _ _ _ => trivial) fun fetched => .bind governs_look fun last =>
        .ite (fun _ => .pure fun _ _ _ => trivial) fun _ => ?_
    exact .bind (inductionHypothesis.from_ fun _ _ _ => trivial) fun _ => .pure fun _ _ _ => trivial

/-! ## Builds -/

omit suits in
/-- A build opens the catalogs in the files of its target. -/
theorem Resumable.opened {foreign external opened exports : Catalog}
    (tells : site.Tells disk foreign) (filed : Filed disk foreign)
    (isExports : site.Exports external) (filedExternal : Filed disk external)
    (ranForeign : Catalog.openAt disk (catalogPath site.settings.target) = .ok opened)
    (ranExternal : Catalog.openAt disk (site.settings.target.child Catalogs.externalFile) =
      .ok exports) : opened = foreign ∧ exports = external := by
  have known : Catalogs.foreignFile ∈ catalogNames := List.mem_cons_self
  have knownExternal : Catalogs.externalFile ∈ catalogNames :=
    List.mem_cons_of_mem _ List.mem_cons_self
  constructor
  · rw [← tells.path] at ranForeign
    exact filed.opened (endsInName_catalog known tells.path) tells.sorted
      (fun record member => (tells.records record member).textual firm) ranForeign
  · rw [← isExports.path] at ranExternal
    exact filedExternal.opened (endsInName_catalog knownExternal isExports.path) isExports.sorted
      (fun record member => Exported.textual firm (isExports.exported record member)) ranExternal

omit suits in
/-- The catalogs of a workspace open as they are in memory, when their counts fit. -/
theorem Working.reopens {enrolled : Prop} {present : Workspace}
    (working : site.Working enrolled present)
    (countable : ∀ record ∈ present.foreign.records, record.Countable)
    (clear : ∀ file ∈ catalogNames, present.disk.directoryAt (site.catalogSpot file) = false) :
    Catalog.openAt present.disk (catalogPath site.settings.target) = .ok present.foreign ∧
      Catalog.openAt present.disk (site.settings.target.child Catalogs.externalFile) =
        .ok present.external := by
  have known : Catalogs.foreignFile ∈ catalogNames := List.mem_cons_self
  have knownExternal : Catalogs.externalFile ∈ catalogNames :=
    List.mem_cons_of_mem _ List.mem_cons_self
  have isForeign := working.tells.path
  have isExternal := working.exports.path
  have uncounted : ∀ record ∈ present.external.records, record.Countable :=
    fun record member count counted => by
      rw [working.exports.uncounted record member] at counted
      exact absurd counted (by simp)
  constructor
  · rw [← isForeign]
    refine working.filed.opens (endsInName_catalog known isForeign) working.tells.sorted
      (fun record member => (working.tells.records record member).textual firm) countable ?_
    rw [working.laid.current, goal_file known isForeign]
    exact clear _ known
  · rw [← isExternal]
    refine working.filedExternal.opens (endsInName_catalog knownExternal isExternal)
      working.exports.sorted
      (fun record member => Exported.textual firm (working.exports.exported record member))
      uncounted ?_
    rw [working.laid.current, goal_file knownExternal isExternal]
    exact clear _ knownExternal

/-- Where an assembly opens its catalogs, a workspace works. -/
theorem Resumable.reopen (resumable : site.Resumable before.disk)
    (slot : site.exact → ∀ text ∈ before.slot.text, site.tags = .ok text)
    (calm : site.flawless → before.disk.Calm)
    (ran : (Workspace.reopen settings.target).Yields before () after) :
    site.Working False after ∧ after.disk = before.disk ∧
      Catalog.openAt before.disk (catalogPath site.settings.target) = .ok after.foreign := by
  obtain ⟨opened, exported, rfl, ranForeign, ranExternal⟩ := yields_reopen.1 ran
  obtain ⟨foreign, external, tells, filed, exports, filedExternal⟩ := resumable.catalogs
  rw [suits.target] at ranForeign ranExternal
  obtain ⟨rfl, rfl⟩ := Resumable.opened firm tells filed exports filedExternal ranForeign ranExternal
  exact ⟨⟨resumable.laid, tells, filed, exports, filedExternal, resumable.neat, slot, False.elim,
    calm⟩, rfl, ranForeign⟩

/-- An assembly goes on from the one before. -/
theorem Resumable.yields (flawed : ¬site.flawless) (resumable : site.Resumable before.disk)
    (selects : site.Selects settings before.disk)
    (slot : site.exact → ∀ text ∈ before.slot.text, site.tags = .ok text) {answer : Assembly}
    (ran : (assemble settings remote).Yields before answer after) :
    ∃ opened, opened.disk = before.disk ∧
      Catalog.openAt before.disk (catalogPath site.settings.target) = .ok opened.foreign ∧
      site.Working False opened ∧ site.Working True after ∧ site.Onward opened after := by
  obtain ⟨opened, registered, ranOpen, ranRegister, ranSettle, _⟩ := yields_assemble.1 ran
  obtain ⟨working, same, isOpened⟩ := resumable.reopen firm suits slot
    (fun flawless => absurd flawless flawed) ranOpen
  rw [← same] at selects
  obtain ⟨atRegistered, onward, _⟩ := (governs_register firm suits opened working selects).1 _ _
    ranRegister
  obtain ⟨atSettled, further, _⟩ := (governs_settle firm suits flawed settings.maxCycles registered
    (atRegistered.enroll suits selects ranRegister) trivial).1 _ _ ranSettle
  exact ⟨opened, same, isOpened, working, atSettled, onward.trans further⟩

/-- Where an assembly stops, the next may go on. -/
theorem Resumable.stops (flawed : ¬site.flawless) (resumable : site.Resumable before.disk)
    (selects : site.Selects settings before.disk)
    (slot : site.exact → ∀ text ∈ before.slot.text, site.tags = .ok text) {failure : Failure}
    (ran : (assemble settings remote).perform before = (.error failure, after)) :
    site.Resumable after.disk := by
  unfold assemble at ran
  rcases Step.fails_bind ran with stopsOpen | ⟨_, opened, ranOpen, ran⟩
  · rw [reopen_fails stopsOpen]
    exact resumable
  obtain ⟨working, same, _⟩ := resumable.reopen firm suits slot
    (fun flawless => absurd flawless flawed) ranOpen
  rw [← same] at selects
  obtain ⟨registers, stopsRegister⟩ := governs_register firm suits opened working selects
  rcases Step.fails_bind ran with stops | ⟨count, registered, ranRegister, ran⟩
  · exact (stopsRegister _ _ stops).2
  have working := (registers _ _ ranRegister).1.enroll suits selects ranRegister
  have last : (site.regime True).Governs (fun _ => True)
      (do let answer ← settle settings remote settings.maxCycles
          let objects ← Step.look fun workspace => workspace.foreign.size
          pure (Assembly.mk count answer.1 answer.2 objects)) fun _ _ => True :=
    .bind (governs_settle firm suits flawed settings.maxCycles) fun _ =>
      .bind governs_look fun _ => .pure fun _ _ _ => trivial
  exact ((last registered working trivial).2 _ _ ran).2

end Stages

end Site

end Build

end EoAssembly
