import EoAssembly.Proofs.Build.Afresh
import EoAssembly.Proofs.Build.Agreeing
import EoAssembly.Proofs.Build.Closure

/-!
Contract: a build that was interrupted is taken up and ends as it would have.

A build of a fresh project stops where a write fails, or a fetch, the table or the parser.  What
it leaves can be taken up.  When the build without the failure ends, the grounds are flawless:
all that it wrote could be written at the start, and what it read and asked for is there.  So the
next build ends too, in as many cycles at most, with the same objects and the same files.

Owns `EndsAlike`, that the site of a project is flawless where its build ends, and this law.
-/

namespace EoAssembly.Build

open ObjectName (Placeable)

variable {settings : Settings} {remote broken : Remote} {tags : Except Failure String}
  {start final : Workspace} {answer : Assembly} {id name : String} {stage : String}
  {location : Location}

/-! ## What the build without the failure had -/

section Whole

variable (afresh : Afresh settings remote tags start)
  (whole : (assemble settings remote).Yields start answer final)

include afresh

theorem Afresh.project (registers : registeredFiles settings start.disk ≠ []) :
    Project settings remote start.disk :=
  ⟨afresh.sound, afresh.named, afresh.target, afresh.strict, afresh.keeps, afresh.store,
    afresh.separate, afresh.apart.places, afresh.fresh, afresh.protocolsFresh, registers⟩

include whole

/-- A build that ends has the cycles that the farthest object takes, and the logs of all that it
pulled. -/
theorem Afresh.reached (registers : registeredFiles settings start.disk ≠ [])
    (finite : ∃ all : List String, ∀ id, IsNeeded settings remote start.disk id → id ∈ all) :
    ∃ depth, IsDepth (registeredIds settings start.disk) (references settings remote start.disk)
        depth ∧
      depth + 2 ≤ settings.maxCycles ∧
      ∀ id, IsNeeded settings remote start.disk id → id ∉ registeredIds settings start.disk →
        Placeable id → ∃ text, final.disk.entryAt?
          ((logPlace settings.protocols id).goal start.disk.current) = some (.file (.text text)) := by
  obtain ⟨opened, count, registered, ranOpen, ranRegister, cycles⟩ := succeeds_of_yields whole
  obtain ⟨scene, _, first⟩ := (afresh.project registers).register ranOpen ranRegister
  obtain ⟨all, inAll⟩ := finite
  obtain ⟨file, member⟩ := List.exists_mem_of_ne_nil _ registers
  obtain ⟨depth, isDepth⟩ := exists_depth (List.mem_map_of_mem member) inAll
  obtain ⟨ends, answers⟩ := first.settle scene isDepth (Nat.zero_le _) cycles
  obtain ⟨ended, settled, _⟩ := (assemble_yields ranOpen ranRegister).1 whole
  obtain ⟨_, asked, progress, _⟩ := answers ended final settled
  refine ⟨depth, isDepth, ends.1 ⟨ended, final, settled⟩, fun id needed foreign placeable => ?_⟩
  obtain ⟨content, shelved, rows⟩ := progress.filed
  have on : OnShelf settings remote start.disk .logs id := ⟨needed, foreign⟩
  have sourced : Front.stands (frontAt settings remote start.disk (depth + 2)) .logs id :=
    (isDepth.needed_iff (by omega)).2 needed
  obtain ⟨text, row, _⟩ := rows.holds .logs id on sourced
  have stands := shelved.stands .logs id on placeable
  rw [row] at stands
  exact ⟨text, stands⟩

end Whole

/-- A catalog file can be written where another one can, when nothing is in its place. -/
theorem receives_catalog {disk : Disk} {target : Path} {file : String}
    (receives : disk.Receives (target.child file)) (known : file ∈ catalogFiles)
    (knownName : name ∈ catalogFiles)
    (free : disk.entryAt? ((target.child name).goal disk.current) = none)
    (apart : (target.child name).goal disk.current ∉ (target.child name).above disk.current) :
    disk.Receives (target.child name) where
  ends := Path.endsInName_child target (Site.isName_catalogFiles name knownName)
  above := by
    rw [above_catalogFile knownName, ← above_catalogFile known target]
    exact receives.above
  apart := apart
  goal := by
    rw [Bool.eq_false_iff]
    intro directory
    exact absurd ((Disk.directoryAt_iff.1 directory).symm.trans free) (by simp)
  allowed := by
    have allowed := receives.allowed
    have short : ∀ other ∈ catalogFiles, Disk.nameAllowed other = true := by decide
    rw [goal_catalogFile known, List.all_append, Bool.and_eq_true] at allowed
    rw [goal_catalogFile knownName, List.all_append, Bool.and_eq_true]
    exact ⟨allowed.1, by simp [short name knownName]⟩

/-! ## Flawless grounds -/

section Flawless

variable (afresh : Afresh settings remote tags start)
  (checked : ∀ file ∈ registeredFiles settings start.disk, checkName file = .ok ())
  (isDirectory : start.disk.isDirectory settings.sources = true)
  (completed : (projectSite settings remote tags start.disk False).Completed
    (references settings remote start.disk) final)

include completed

/-- What the project needs is served by the store. -/
theorem served_of_completed (needed : IsNeeded settings remote start.disk name)
    (foreign : name ∉ registeredIds settings start.disk) :
    ∃ text, (remote.fetch name start.disk).1 = .ok text := by
  have unregistered : ¬(projectSite settings remote tags start.disk False).Registers name := foreign
  have live := Site.live_stored needed unregistered (completed.stored needed unregistered).1 .pulled rfl
  obtain ⟨content, holds⟩ := completed.stands live (by simp)
  obtain ⟨text, _, answers⟩ := completed.working.laid.permits .pulled name content live holds trivial
  exact ⟨text, answers⟩

include afresh isDirectory

/-- The tags of the objects that the project needs have hashes. -/
theorem pins_of_completed (settled : Settled settings tags final.disk final.foreign)
    (needed : IsNeeded settings remote start.disk name)
    (foreign : name ∉ registeredIds settings start.disk) : Pins tags name := by
  have stored := (completed.stored needed foreign).2
  obtain ⟨count, reaches⟩ := needed
  cases reaches with
  | root member => exact absurd member foreign
  | @refers fewer id name before member =>
    have referred := completed.referred (follows_references afresh.tidy afresh.named isDirectory)
      ⟨fewer, before⟩ member
    exact (settled.skipped name referred).2 stored

include checked

/-- All that a build of the project writes can be written at the start. -/
theorem receives_of_completed (registers : registeredFiles settings start.disk ≠ [])
    (logs : ∀ id, IsNeeded settings remote start.disk id → id ∉ registeredIds settings start.disk →
      Placeable id → ∃ text, final.disk.entryAt?
        ((logPlace settings.protocols id).goal start.disk.current) = some (.file (.text text)))
    {path : Path} (writes : (projectSite settings remote tags start.disk False).Writes path) :
    start.disk.Receives path := by
  have firm : (projectSite settings remote tags start.disk False).Firm :=
    firm_projectSite afresh checked isDirectory False.elim
  have isExact := firm.exact trivial
  have laid := completed.working.laid
  have received : ∀ {path content}, (projectSite settings remote tags start.disk False).Writes path →
      final.disk.entryAt? (path.goal start.disk.current) = some (.file content) →
      start.disk.Receives path := fun writes stands =>
    (completed.working.neat trivial).received firm isExact laid.current writes stands
  cases writes with
  | @piece piece id live =>
    by_cases isLog : piece = .log
    · subst isLog
      obtain ⟨text, stands⟩ := logs id live.involved (live.stored rfl)
        (placeable_of_live afresh checked live)
      exact received (.piece live) stands
    · obtain ⟨content, stands⟩ := completed.stands live isLog
      exact received (.piece live) stands
  | @catalog file known =>
    obtain ⟨root, member⟩ := List.exists_mem_of_ne_nil _ registers
    obtain ⟨record, found, _⟩ := completed.discovered (idOf root) (firm.roots root member)
    have isForeign : Catalogs.foreignFile ∈ catalogFiles := List.mem_cons_self
    have stands := (completed.working.filed.resolve_right fun empty =>
      records_of_find? found empty.1).1
    rw [completed.working.tells.path, laid.current] at stands
    exact receives_catalog (received (.catalog isForeign) stands) isForeign known
      (isExact.free _ (.catalog known)) (isExact.clear _ _ (.catalog known) (.catalog known))

/-- The site of a project is flawless where its build ends. -/
theorem able_projectSite (registers : registeredFiles settings start.disk ≠ [])
    (settled : Settled settings tags final.disk final.foreign)
    (logs : ∀ id, IsNeeded settings remote start.disk id → id ∉ registeredIds settings start.disk →
      Placeable id → ∃ text, final.disk.entryAt?
        ((logPlace settings.protocols id).goal start.disk.current) = some (.file (.text text))) :
    (projectSite settings remote tags start.disk True).Able where
  exact := trivial
  receives path writes := by
    refine receives_of_completed afresh checked isDirectory completed registers logs ?_
    cases writes with
    | piece live => exact .piece ⟨live.1, live.2, live.3, live.4⟩
    | catalog known => exact .catalog known
  documents id source involved expected :=
    completed.documents (fun _ _ _ one other => Except.ok.inj (one.symm.trans other)) involved expected
  texts id file last :=
    completed.texts (firm_projectSite afresh checked isDirectory False.elim) last
  placed id involved foreign := (completed.stored involved foreign).1
  pins id involved foreign := pins_of_completed afresh isDirectory completed settled involved foreign

end Flawless

/-! ## Nothing to build -/

/-- Where no object may come up, a build has nothing to do. -/
theorem Site.Resumable.idle {site : Site} {before : Workspace} (firm : site.Firm)
    (suits : site.Suits settings remote) (exact_ : site.exact)
    (constant : ∀ disk, remote.table disk = site.tags) (flawed : ¬site.flawless)
    (resumable : site.Resumable before.disk) (slot : ∀ text ∈ before.slot.text, site.tags = .ok text)
    (files : registeredFiles settings before.disk = [])
    (isDirectory : before.disk.isDirectory settings.sources = true)
    (included : ∃ included, Settings.patterns settings.included = .ok included)
    (excluded : ∃ excluded, Settings.patterns settings.excluded = .ok excluded)
    (nobody : ∀ id, ¬site.involved id) (bound : settings.maxCycles ≠ 0) :
    ∃ answer after, (assemble settings remote).Yields before answer after := by
  obtain ⟨foreign, external, tells, filed, exports, filedExternal⟩ := resumable.catalogs
  have empty : ∀ record ∈ foreign.records, False := fun record member =>
    nobody _ (tells.records record member).involved
  have working : site.Working False { before with foreign := foreign, external := external } :=
    ⟨resumable.laid, tells, filed, exports, filedExternal, resumable.neat, fun _ => slot, False.elim,
      fun flawless => absurd flawless flawed⟩
  obtain ⟨ranForeign, ranExternal⟩ := working.reopens firm
    (fun record member => (empty record member).elim) fun file known => by
      have isFile : file ∈ catalogFiles := (catalogNames_plain file known).2.2.1
      rw [← Site.goal_catalog isFile]
      exact (resumable.neat exact_).noDirectory (firm.exact exact_) (.catalog isFile)
  have settled : Settled settings site.tags before.disk foreign := by
    refine ⟨fun record member => (empty record member).elim, fun name member => ?_⟩
    obtain ⟨record, among, _⟩ := mem_referredNames.1 member
    exact (empty record among).elim
  obtain ⟨left, isBound⟩ := Nat.exists_eq_succ_of_ne_zero bound
  have settling : Settled settings site.tags
      { before with foreign := foreign, external := external }.disk foreign := settled
  obtain ⟨after, ranSettle, _⟩ := settle_yields constant settling ⟨slot, by simp⟩ left
  rw [← suits.target] at ranForeign ranExternal
  have ranRegister : (register settings).Yields
      { before with foreign := foreign, external := external } 0
      { before with foreign := foreign, external := external } := by
    refine yields_register.2 ⟨isDirectory, included, excluded, ?_, ?_⟩
    · rw [files]
      rfl
    · rw [files]
      exact Step.yields_pure.2 ⟨rfl, rfl⟩
  rw [← Nat.succ_eq_add_one, ← isBound] at ranSettle
  exact ⟨⟨0, 1, 0, after.foreign.size⟩, after, yields_assemble_opened.2 ⟨foreign, external, _, ranForeign,
    ranExternal, ranRegister, ranSettle, rfl⟩⟩

/-! ## Ends -/

/-- The directories of the stages in a target. -/
def stageDirectories : List String :=
  [parsedDirectory, stepsDirectory, optimizedDirectory, pulledDirectory]

/-- Two builds ended with the same objects and the same files of stages.  The documents in which
objects were discovered, the cycles and the logs are not compared. -/
structure EndsAlike (settings : Settings) (first second : Workspace) : Prop where
  current : second.disk.current = first.disk.current
  foreign : second.foreign.records.map Record.outcome = first.foreign.records.map Record.outcome
  external : second.external = first.external
  files : ∀ stage ∈ stageDirectories, ∀ location,
    settings.target.goal first.disk.current ++ [stage] <+: location →
      second.disk.entryAt? location = first.disk.entryAt? location

theorem stageDirectories_apart : ∀ stage ∈ stageDirectories, stage ∉ catalogFiles := by decide

/-- In the directories of stages there are files of objects only. -/
theorem made_stage {flawless : Prop} (afresh : Afresh settings remote tags start)
    (checked : ∀ file ∈ registeredFiles settings start.disk, checkName file = .ok ())
    (known : stage ∈ stageDirectories)
    (below : settings.target.goal start.disk.current ++ [stage] <+: location) :
    (projectSite settings remote tags start.disk flawless).Made location where
  vacant := by
    refine afresh.fresh location ((List.prefix_append _ _).trans below) fun same => ?_
    have short := below.length_le
    rw [same, List.length_append, List.length_singleton] at short
    omega
  ours path writes touches := by
    have inTarget : settings.target.goal start.disk.current <+: location :=
      (List.prefix_append _ _).trans below
    cases writes with
    | @piece piece id live =>
      refine ⟨piece, id, live, ?_, rfl⟩
      rintro rfl
      have clear : (Piece.log.place settings id).Clear start.disk.current settings.target :=
        afresh.separate.log_clear (placeable_of_live afresh checked live)
      change location = (Piece.log.place settings id).goal start.disk.current ∨
        location ∈ (Piece.log.place settings id).above start.disk.current at touches
      rcases touches with here | above
      · rw [here] at inTarget
        exact clear.goal inTarget
      · have ends := piece_endsInName afresh checked live
        exact clear.way ((Path.mem_way_iff_above ends).2 (Or.inl above)) inTarget
    | @catalog name isFile =>
      rcases touches with here | above
      · have same : location = settings.target.goal start.disk.current ++ [name] :=
          here.trans (goal_catalogFile isFile settings.target start.disk.current)
        rw [same, List.prefix_append_right_inj] at below
        have isName : stage = name := List.singleton_inj.1 (below.eq_of_length rfl)
        exact absurd isFile (isName ▸ stageDirectories_apart stage known)
      · have onWay : location ∈ settings.target.way start.disk.current :=
          above_catalogFile isFile settings.target start.disk.current ▸ above
        have short := below.length_le
        rw [afresh.separate.directTarget location onWay inTarget, List.length_append,
          List.length_singleton] at short
        omega

/-! ## Taking up an interrupted build -/

section Again

variable {stopped again : Workspace} (afresh : Afresh settings remote tags start)
  (checked : ∀ file ∈ registeredFiles settings start.disk, checkName file = .ok ())
  (isDirectory : start.disk.isDirectory settings.sources = true)
  (included : ∃ included, Settings.patterns settings.included = .ok included)
  (excluded : ∃ excluded, Settings.patterns settings.excluded = .ok excluded)

include afresh

/-- The outside of a fresh project is one that fails as it does. -/
theorem Afresh.falters : remote.Falters remote := by
  obtain ⟨store, function⟩ := afresh.store
  refine ⟨fun name disk => ?_, fun _ _ _ fetched => fetched, fun _ _ _ made => made,
    fun _ _ loaded => loaded⟩
  rw [function]
  rfl

include checked isDirectory included excluded

/-- A build that takes up what may stand on the site of the project ends with all of it. -/
theorem completed_of_yields
    (resumable : (projectSite settings remote tags start.disk False).Resumable again.disk)
    (slot : ∀ text ∈ again.slot.text, tags = .ok text)
    (ran : (assemble settings remote).Yields again answer final) :
    (projectSite settings remote tags start.disk False).Completed
      (references settings remote start.disk) final := by
  have firm : (projectSite settings remote tags start.disk False).Firm :=
    firm_projectSite afresh checked isDirectory False.elim
  exact resumable.completes (suits_projectSite afresh afresh.falters False.elim) trivial firm
    (follows_references afresh.tidy afresh.named isDirectory)
    not_false (fun _ involved => involved)
    (selects_projectSite afresh checked isDirectory included excluded resumable) slot ran

/-- What a build leaves where it stops can be taken up. -/
theorem resumable_of_stop {outages : List Bool} {failure : Failure} (falters : broken.Falters remote)
    (interrupted : (assemble settings broken).perform
      { start with disk := { start.disk with outages := outages } } = (.error failure, stopped)) :
    (projectSite settings remote tags start.disk False).Resumable stopped.disk := by
  have begun : (projectSite settings remote tags start.disk False).Resumable
      ({ start with disk := { start.disk with outages := outages } } : Workspace).disk :=
    (resumable_projectSite afresh checked isDirectory).forecast outages
  exact begun.stops (firm_projectSite afresh checked isDirectory False.elim)
    (suits_projectSite afresh falters False.elim) not_false
    (selects_projectSite afresh checked isDirectory included excluded begun)
    (fun _ => afresh.slot) interrupted

/-- When the build from the start ends, so does one that takes up what may stand on the site. -/
theorem succeeds_again (whole : (assemble settings remote).Yields start answer final)
    (countable : ∀ record ∈ final.foreign.records, record.Countable)
    (resumable : (projectSite settings remote tags start.disk False).Resumable again.disk)
    (calm : again.disk.Calm) (slot : ∀ text ∈ again.slot.text, tags = .ok text) :
    ∃ counts resumed, (assemble settings remote).Yields again counts resumed := by
  have follows : (projectSite settings remote tags start.disk False).Follows
      (references settings remote start.disk) :=
    follows_references afresh.tidy afresh.named isDirectory
  have ended := completed_of_yields afresh checked isDirectory included excluded
    (resumable_projectSite afresh checked isDirectory) afresh.slot whole
  have built := (afresh.toUnbuilt.built whole).1
  by_cases registers : registeredFiles settings start.disk = []
  · have selects := selects_projectSite afresh checked isDirectory included excluded resumable
    have nobody : ∀ id, ¬IsNeeded settings remote start.disk id := by
      intro id needed
      refine needed.least (fun _ => False) (fun root member => ?_) fun _ never => never.elim
      unfold registeredIds at member
      rw [registers] at member
      exact absurd member (by simp)
    exact resumable.idle (firm_projectSite afresh checked isDirectory False.elim)
      (suits_projectSite afresh afresh.falters False.elim) trivial afresh.table not_false slot
      (selects.files.trans registers) (isDirectory_sources afresh checked isDirectory resumable)
      included excluded nobody built.bound
  · have finite : ∃ all : List String, ∀ id, IsNeeded settings remote start.disk id → id ∈ all :=
      ⟨_, fun id needed => ended.mem_ids.2 needed⟩
    obtain ⟨depth, isDepth, enough, logs⟩ := afresh.reached whole registers finite
    have able := able_projectSite afresh checked isDirectory ended registers built.settled logs
    have ideal : (projectSite settings remote tags start.disk True).Resumable again.disk :=
      resumable.regrade True
    refine ideal.succeeds (firm_projectSite afresh checked isDirectory fun _ => able)
      (suits_projectSite afresh afresh.falters fun _ => ⟨rfl, fun name => served_of_completed ended⟩)
      follows trivial (fun _ involved => involved) isDepth
      (selects_projectSite afresh checked isDirectory included excluded ideal) (fun _ => slot)
      calm (fun id involved => ?_) enough
    obtain ⟨record, found, isSome⟩ := ended.discovered id involved
    exact countable record (Catalog.mem_of_find? found) _
      (ended.working.referring follows found isSome).1

omit included excluded

/-- Two workspaces in which all of a project is completed are alike. -/
theorem endsAlike_of_completed {resumed : Workspace}
    (ended : (projectSite settings remote tags start.disk False).Completed
      (references settings remote start.disk) final)
    (finished : (projectSite settings remote tags start.disk False).Completed
      (references settings remote start.disk) resumed) : EndsAlike settings final resumed := by
  have follows : (projectSite settings remote tags start.disk False).Follows
      (references settings remote start.disk) :=
    follows_references afresh.tidy afresh.named isDirectory
  have firm : (projectSite settings remote tags start.disk False).Firm :=
    firm_projectSite afresh checked isDirectory False.elim
  have single : (projectSite settings remote tags start.disk False).Single :=
    fun _ _ _ one other => Except.ok.inj (one.symm.trans other)
  refine ⟨finished.working.laid.current.trans ended.working.laid.current.symm,
    ended.same_records trivial follows finished, ended.same_exports finished,
    fun stage known location below => ?_⟩
  rw [ended.working.laid.current] at below
  exact ended.same_entry firm trivial single finished (made_stage afresh checked known below)

end Again

/-- The sample project, where the sixth write fails: that of the catalog, once the document of `a`
is written. -/
def haltedStart : Workspace :=
  { sampleStart with
    disk := { sampleStart.disk with outages := List.replicate 5 false ++ [true] } }

/-- What the assembly of the project comes to. -/
def haltedRun : Except Failure Assembly × Workspace :=
  (assemble sampleSettings sampleRemote).perform haltedStart

theorem haltedRun_stops :
    haltedRun.1 = .error (haltedRun.2.foreign.siblingRefused .noSpace) ∧
      haltedRun.2.disk.exists? (parsedPlace sampleSettings.target "a") = true := by
  decide +kernel

theorem sample_afresh : Afresh sampleSettings sampleRemote (.ok "") sampleStart := by
  have places : stepsPlace sampleSettings.target "a" = ⟨["t", "02-steps", "a"]⟩ ∧
      stepsPlace sampleSettings.target "org.eolang.b" = ⟨["t", "02-steps", "org", "eolang", "b"]⟩ := by
    decide +kernel
  have steps : (stepsPlace sampleSettings.target "a").Clear ["w"]
        (stepsPlace sampleSettings.target "org.eolang.b") ∧
      (stepsPlace sampleSettings.target "org.eolang.b").Clear ["w"]
        (stepsPlace sampleSettings.target "a") := by
    rw [places.1, places.2]
    decide
  refine { unbuilt_sample with
    strict := rfl
    protocolsFresh := nothingBelow_of_entries (by decide) (by decide)
    apart := sample_project.apart.pieces unbuilt_sample.separate
      fun id twin needed neededTwin different => ?_ }
  rcases sample_needed needed with rfl | rfl
  · rcases sample_needed neededTwin with rfl | rfl
    · exact absurd rfl different
    · exact steps.1
  · rcases sample_needed neededTwin with rfl | rfl
    · exact steps.2
    · exact absurd rfl different

end EoAssembly.Build
