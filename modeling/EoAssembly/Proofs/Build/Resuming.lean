import EoAssembly.Proofs.Build.Telling

/-!
Contract: the regime of builds on a site that may be interrupted and taken up again.

While a build runs, the disk is laid, the catalog tells what stands on it, and the catalog
files hold the catalogs in memory.  Where a build stops, the catalog files hold catalogs
that tell what stands.  The documents that are recorded stay as they are, and so do all
optimized documents.  On flawless grounds a build doesn't stop.

Owns `Site.Working`, `Site.Resumable`, `Site.Onward`, `Site.regime`, and the rule for each
operation of a build in this regime.
-/

namespace EoAssembly.Build

open Disk (Touches)
open Path (IsName)

namespace Site

/-- Every registered object has its last file as source. -/
def Enrolled (site : Site) (catalog : Catalog) : Prop :=
  ∀ id file, lastNamed site.files id = some file →
    ∃ record, catalog.find? id = some record ∧ record.source = some (site.sourcePath file)

/-- A workspace while a build runs; once all files are registered, it is enrolled. -/
structure Working (site : Site) (enrolled : Prop) (present : Workspace) : Prop where
  laid : site.Laid present.disk
  tells : site.Tells present.disk present.foreign
  filed : Filed present.disk present.foreign
  exports : site.Exports present.external
  filedExternal : Filed present.disk present.external
  neat : site.exact → site.Neat present.disk
  slot : site.exact → ∀ text ∈ present.slot.text, site.tags = .ok text
  enrolled : enrolled → site.Enrolled present.foreign
  calm : site.flawless → present.disk.Calm

/-- A disk where a build can take up the work. -/
structure Resumable (site : Site) (disk : Disk) : Prop where
  laid : site.Laid disk
  neat : site.exact → site.Neat disk
  catalogs : ∃ foreign external, site.Tells disk foreign ∧ Filed disk foreign ∧
    site.Exports external ∧ Filed disk external

/-- A workspace that a build leads to. -/
structure Onward (site : Site) (before after : Workspace) : Prop where
  grows : before.foreign.Grows after.foreign
  stands : ∀ piece id, site.Live piece id → site.Stands before.disk piece id →
    site.Stands after.disk piece id
  optimized : ∀ id content, site.Live .optimized id →
    site.Holds before.disk .optimized id content → site.Holds after.disk .optimized id content
  parsed : ∀ id content, site.Live .parsed id →
    Marked (fun record => record.xmir.isSome) before.foreign id →
      site.Holds before.disk .parsed id content → site.Holds after.disk .parsed id content
  answered : ∀ id, site.Live .pulled id → site.Answered before.disk id → site.Answered after.disk id

variable {site : Site} {enrolled : Prop} {present before between after : Workspace}
  {disk next : Disk} {catalog : Catalog} {piece : Piece} {id name text : String} {path : Path}
  {settings : Settings} {remote : Remote}

namespace Onward

theorem refl (present : Workspace) : site.Onward present present :=
  ⟨.refl _, fun _ _ _ stands => stands, fun _ _ _ holds => holds, fun _ _ _ _ holds => holds,
    fun _ _ answered => answered⟩

theorem trans (first : site.Onward before between) (second : site.Onward between after) :
    site.Onward before after where
  grows := first.grows.trans second.grows
  stands piece id live stands := second.stands piece id live (first.stands piece id live stands)
  optimized id content live holds :=
    second.optimized id content live (first.optimized id content live holds)
  parsed id content live marked holds :=
    second.parsed id content live (marked.later Record.Within.xmir first.grows)
      (first.parsed id content live marked holds)
  answered id live answered := second.answered id live (first.answered id live answered)

end Onward

/-- Builds keep a workspace working and lead onward; where they stop, the work can be taken up. -/
def regime (site : Site) (enrolled : Prop) : Regime where
  holds := site.Working enrolled
  later := site.Onward
  stopped present := ¬site.flawless ∧ site.Resumable present.disk
  refl _ := .refl _
  trans := .trans

theorem Working.resumable (working : site.Working enrolled present) : site.Resumable present.disk :=
  ⟨working.laid, working.neat, present.foreign, present.external, working.tells, working.filed,
    working.exports, working.filedExternal⟩

/-! ## Where builds begin -/

/-- A disk where nothing was built can be taken up. -/
theorem resumable_start (sound : site.start.Sound)
    (sources : ∀ file ∈ site.files,
      site.start.entry? (site.sourcePath file) = some (.file (site.content file)))
    (tidy : site.exact → site.start.Tidy)
    (vacant : ∀ piece id, site.Live piece id → piece ≠ .log ∨ site.exact →
      ¬site.Stands site.start piece id)
    (unfiled : ∀ file ∈ catalogNames, ∀ content,
      site.start.entryAt? ((site.settings.target.child file).goal site.current) ≠
        some (.file content)) : site.Resumable site.start where
  laid := {
    sound := sound
    current := rfl
    sources := sources
    reached := fun piece id live noLog stands => absurd stands (vacant piece id live (Or.inl noLog))
    permits := fun piece id content live holds => by
      by_cases isLog : piece = .log
      · subst isLog
        exact fun exact_ => absurd ⟨content, holds⟩ (vacant .log id live (Or.inr exact_))
      · exact absurd ⟨content, holds⟩ (vacant piece id live (Or.inl isLog)) }
  neat exact_ := ⟨fun _ _ stands => stands, fun _ _ stands => Or.inl stands,
    fun _ stands => Or.inl stands, tidy exact_, fun _ passable => passable⟩
  catalogs := by
    refine ⟨⟨catalogPath site.settings.target, []⟩,
      ⟨site.settings.target.child Catalogs.externalFile, []⟩, ?_,
      Or.inr ⟨rfl, unfiled _ List.mem_cons_self⟩, ?_,
      Or.inr ⟨rfl, unfiled _ (List.mem_cons_of_mem _ List.mem_cons_self)⟩⟩
    · refine ⟨rfl, List.Pairwise.nil, fun _ member => absurd member (by simp),
        fun id live stands => absurd stands (vacant .parsed id live (Or.inl (by simp))),
        fun piece id isMade live stands => absurd stands (vacant piece id live (Or.inl ?_))⟩
      rintro rfl
      exact isMade rfl
    · exact ⟨rfl, List.Pairwise.nil, fun _ member => absurd member (by simp),
        fun _ member => absurd member (by simp), fun _ member => absurd member (by simp),
        fun _ => rfl, fun _ _ member => absurd member (by simp)⟩

/-- It doesn't matter which failures are forced on the writes to come. -/
theorem Resumable.forecast (resumable : site.Resumable disk) (outages : List Bool) :
    site.Resumable { disk with outages := outages } := by
  have alike : disk.Alike { disk with outages := outages } := ⟨rfl, fun _ => rfl⟩
  obtain ⟨laid, neat, foreign, external, tells, filed, exports, filedExternal⟩ := resumable
  refine ⟨⟨⟨laid.sound.current, laid.sound.parents⟩, laid.current, fun file member => ?_, laid.reached,
    fun piece id content live holds => ?_⟩, fun exact_ => ?_, foreign, external,
    tells.still fun _ _ _ _ => Iff.rfl, filed, exports, filedExternal⟩
  · rw [alike.entry?]
    exact laid.sources file member
  · have permits := laid.permits piece id content live holds
    exact permits.mono (fun _ holds => Or.inl holds) (fun _ _ stands => stands)
      fun _ stands => stands
  · have isNeat := neat exact_
    refine ⟨isNeat.stays, fun location content stands => ?_, isNeat.directories, isNeat.tidy,
      isNeat.passes⟩
    refine (isNeat.files location content stands).imp_right ?_
    rintro ⟨path, writes, same, carries⟩
    exact ⟨path, writes, same, carries.above, carries.allowed⟩

/-- It doesn't matter either whether the grounds are flawless. -/
theorem Resumable.regrade (resumable : site.Resumable disk) (flawless : Prop) :
    ({ site with flawless := flawless } : Site).Resumable disk := by
  obtain ⟨laid, neat, foreign, external, tells, filed, exports, filedExternal⟩ := resumable
  have live : ∀ {piece id}, ({ site with flawless := flawless } : Site).Live piece id →
      site.Live piece id := fun here => ⟨here.1, here.2, here.3, here.4⟩
  have writes : ∀ {path}, site.Writes path →
      ({ site with flawless := flawless } : Site).Writes path := by
    intro path here
    cases here with
    | piece own => exact .piece ⟨own.1, own.2, own.3, own.4⟩
    | catalog known => exact .catalog known
  refine ⟨⟨laid.sound, laid.current, laid.sources, fun piece id here => laid.reached piece id (live here),
    fun piece id content here holds => laid.permits piece id content (live here) holds⟩,
    fun exact_ => ?_, foreign, external,
    ⟨tells.path, tells.sorted, fun record member => ?_, fun id here => tells.parsed id (live here),
      fun piece id isMade here => tells.made piece id isMade (live here)⟩, filed,
    ⟨exports.path, exports.sorted, exports.registers, exports.exported, exports.uncounted,
      exports.versions, exports.plain⟩, filedExternal⟩
  · have isNeat := neat exact_
    refine ⟨isNeat.stays, fun location content stands => ?_, fun location stands => ?_, isNeat.tidy,
      isNeat.passes⟩
    · refine (isNeat.files location content stands).imp_right ?_
      rintro ⟨path, own, rest⟩
      exact ⟨path, writes own, rest⟩
    · refine (isNeat.directories location stands).imp_right ?_
      rintro ⟨⟨path, own, above⟩, names⟩
      exact ⟨⟨path, writes own, above⟩, names⟩
  · have fits := tells.records record member
    exact ⟨fits.involved, fits.placed, fits.ofProject, fits.ofStore, fits.answered, fits.standing,
      fits.parsed, fits.optimized, fits.discovered, fits.seen, fits.status, fits.pinned⟩

/-! ## Catalog files -/

section Persist

variable {file : String} {outcome : Except Failure Unit}

theorem goal_sibling (firm : site.Firm) (known : file ∈ catalogNames)
    (path : catalog.path = site.settings.target.child file) :
    catalog.sibling = site.settings.target.child (file ++ ".tmp") ∧
      catalog.sibling.goal site.current = site.catalogSpot (file ++ ".tmp") := by
  obtain ⟨plain, longer, _⟩ := catalogNames_plain file known
  have same : catalog.sibling = site.settings.target.child (file ++ ".tmp") := by
    unfold Catalog.sibling
    rw [path, Path.extended_child firm.target plain longer]
  rw [same]
  exact ⟨rfl, Path.goal_of_names site.current (Path.components_child site.settings.target longer)⟩

theorem goal_file (known : file ∈ catalogNames) (path : catalog.path = site.settings.target.child file) :
    catalog.path.goal site.current = site.catalogSpot file :=
  @Grounds.goal_catalog site.grounds catalog file known path

theorem endsInName_catalog (known : file ∈ catalogNames)
    (path : catalog.path = site.settings.target.child file) : catalog.path.EndsInName := by
  rw [path]
  exact Path.endsInName_child _ (catalogNames_plain file known).1

theorem sibling_apart (firm : site.Firm) (known : file ∈ catalogNames)
    (path : catalog.path = site.settings.target.child file) :
    catalog.sibling.goal site.current ≠ catalog.path.goal site.current := by
  rw [(goal_sibling firm known path).2, goal_file known path]
  exact fun same => (catalogNames_plain file known).2.2.2.2
    (List.singleton_inj.1 (List.append_cancel_left same))

/-- What persisting a catalog touches. -/
theorem touches_persist (firm : site.Firm) (laid : site.Laid disk) (known : file ∈ catalogNames)
    (path : catalog.path = site.settings.target.child file)
    (ran : catalog.persist disk = (outcome, next)) :
    Touches [site.catalogSpot file, site.catalogSpot (file ++ ".tmp")]
      [site.catalogSpot (file ++ ".tmp")] (catalog.path.way site.current) disk next := by
  have touches := Catalog.touches_persist laid.sound (endsInName_catalog known path) ran
  rw [laid.current, goal_file known path, (goal_sibling firm known path).2] at touches
  exact touches

/-- Persisting a catalog changes no piece and no source. -/
theorem persist_pieces (firm : site.Firm) (laid : site.Laid disk) (known : file ∈ catalogNames)
    (path : catalog.path = site.settings.target.child file)
    (ran : catalog.persist disk = (outcome, next)) :
    site.Laid next ∧ ∀ piece id content, site.Live piece id →
      (site.Holds next piece id content ↔ site.Holds disk piece id content) := by
  obtain ⟨_, _, isCatalog, isSibling, _⟩ := catalogNames_plain file known
  have touches := touches_persist firm laid known path ran
  have pieces : ∀ piece id, site.Live piece id →
      site.spot piece id ∉ [site.catalogSpot file, site.catalogSpot (file ++ ".tmp")] ∧
        site.spot piece id ∉ [site.catalogSpot (file ++ ".tmp")] := by
    intro piece id live
    have apart := firm.beside piece id live
    exact ⟨by simp [apart _ isCatalog, apart _ isSibling], by simp [apart _ isSibling]⟩
  refine ⟨laid.touch touches pieces fun source member => ?_, fun piece id content live =>
    holds_touch touches (pieces piece id live).1 (pieces piece id live).2⟩
  have apart := (firm.aloof source member).2
  exact ⟨by simp [apart _ isCatalog, apart _ isSibling], by simp [apart _ isSibling]⟩

theorem persist_neat (firm : site.Firm) (exact_ : site.Exact) (laid : site.Laid disk)
    (neat : site.Neat disk) (known : file ∈ catalogNames)
    (path : catalog.path = site.settings.target.child file)
    (ran : catalog.persist disk = (outcome, next)) : site.Neat next := by
  obtain ⟨plain, longer, isCatalog, isSibling, _⟩ := catalogNames_plain file known
  have raises := Catalog.persist_raises laid.sound (endsInName_catalog known path) ran
  rw [laid.current, path] at raises
  have sibling := goal_sibling firm known path
  have ours : ∀ name ∈ [file, file ++ ".tmp"],
      ∃ path, site.Writes path ∧ site.catalogSpot name = path.goal site.current ∧
        ∀ content, next.entryAt? (site.catalogSpot name) = some (.file content) →
          disk.entryAt? (site.catalogSpot name) = some (.file content) ∨ next.Carries path := by
    have carried : ∀ {written : Path} {name : String},
        written = catalog.path ∨ written = catalog.sibling →
        written = site.settings.target.child name → name ∈ catalogFiles →
        ∃ path, site.Writes path ∧ site.catalogSpot name = path.goal site.current ∧
          ∀ content, next.entryAt? (site.catalogSpot name) = some (.file content) →
            disk.entryAt? (site.catalogSpot name) = some (.file content) ∨ next.Carries path := by
      intro written name either isPath isFile
      refine ⟨_, .catalog isFile, (goal_catalog isFile).symm, fun content stands => ?_⟩
      rw [← goal_catalog isFile, ← isPath, ← laid.current] at stands ⊢
      refine Catalog.persist_carries laid.sound (endsInName_catalog known path) ?_ ran either stands
      rw [sibling.1, path, Path.components_child _ longer, Path.components_child _ plain,
        List.dropLast_concat, List.dropLast_concat]
    intro name member
    rcases List.mem_cons.1 member with same | behind
    · rw [same]
      exact carried (Or.inl rfl) path isCatalog
    · rw [List.mem_singleton.1 behind]
      exact carried (Or.inr rfl) sibling.1 isSibling
  refine neat.touch exact_ (touches_persist firm laid known path ran) (fun location touched => ?_)
    raises (fun location above => ⟨_, .catalog isCatalog, above⟩) (neat.tidy.persist ran)
  simp only [List.mem_cons, List.not_mem_nil, or_false] at touched
  rcases touched with (same | same) | same
  · rw [same]
    exact ours _ (by simp)
  · rw [same]
    exact ours _ (by simp)
  · rw [same]
    exact ours _ (by simp)

/-- A catalog stays in its file when the file holds what it held. -/
theorem Filed.still (filed : Filed disk catalog) (current : next.current = disk.current)
    (passable : disk.Passable catalog.path → next.Passable catalog.path)
    (same : ∀ content, next.entryAt? (catalog.path.goal disk.current) = some (.file content) ↔
      disk.entryAt? (catalog.path.goal disk.current) = some (.file content)) : Filed next catalog := by
  unfold Filed at filed ⊢
  rw [current]
  rcases filed with ⟨stands, reaches⟩ | ⟨empty, nothing⟩
  · exact Or.inl ⟨(same _).2 stands, passable reaches⟩
  · exact Or.inr ⟨empty, fun content stands => nothing content ((same content).1 stands)⟩

/-- A catalog that was persisted is in its file; where that fails, the one before still is. -/
theorem persist_filed (firm : site.Firm) (laid : site.Laid disk) (known : file ∈ catalogNames)
    (path : catalog.path = site.settings.target.child file)
    (ran : catalog.persist disk = (outcome, next)) :
    (outcome = .ok () → Filed next catalog) ∧
      ∀ failure, outcome = .error failure → ∀ old : Catalog,
        old.path = site.settings.target.child file → Filed disk old → Filed next old := by
  have apart := sibling_apart firm known path
  have touches := touches_persist firm laid known path ran
  constructor
  · intro fine
    rw [fine] at ran
    rw [← laid.current] at apart
    obtain ⟨stands, _⟩ := Catalog.persist_stands laid.sound apart ran
    rw [← touches.current] at stands
    exact Or.inl ⟨stands, (Catalog.persist_ok laid.sound ran).1⟩
  · intro failure isError old pathOld filed
    rw [isError] at ran
    have failed := Catalog.persist_failed laid.sound ran
    have free : old.path.goal disk.current ∉ [catalog.sibling.goal disk.current] := by
      rw [List.mem_singleton, laid.current, pathOld, ← path]
      exact Ne.symm apart
    exact filed.still failed.current failed.passable fun content =>
      ⟨failed.file_before free (by simp), failed.stays free (by simp)⟩

/-- A catalog stays in its file when the other one is persisted. -/
theorem Filed.persist_other {other : String} {written : Catalog} (firm : site.Firm)
    (laid : site.Laid disk) (known : file ∈ catalogNames) (knownOther : other ∈ catalogNames)
    (different : file ≠ other) (path : catalog.path = site.settings.target.child file)
    (pathOther : written.path = site.settings.target.child other) (filed : Filed disk catalog)
    (ran : written.persist disk = (outcome, next)) : Filed next catalog := by
  have touches := touches_persist firm laid knownOther pathOther ran
  have goal : catalog.path.goal disk.current = site.catalogSpot file := by
    rw [laid.current]
    exact goal_file known path
  have spots : ∀ one ∈ catalogNames, ∀ two ∈ catalogNames, one ≠ two → one ≠ two ++ ".tmp" := by
    decide
  have apart : ∀ name, file ≠ name → site.catalogSpot file ≠ site.catalogSpot name :=
    fun name differ same => differ (List.singleton_inj.1 (List.append_cancel_left same))
  have unwritten : site.catalogSpot file ∉
      [site.catalogSpot other, site.catalogSpot (other ++ ".tmp")] := by
    simp [apart _ different, apart _ (spots file known other knownOther different)]
  have kept : site.catalogSpot file ∉ [site.catalogSpot (other ++ ".tmp")] := by
    simp [apart _ (spots file known other knownOther different)]
  refine filed.still touches.current touches.passable fun content => ?_
  rw [goal]
  exact ⟨touches.file_before unwritten kept, touches.stays unwritten kept⟩

/-- A catalog stays in its file when a piece is written. -/
theorem Filed.write {written : String} (laid : site.Laid disk)
    (wrote : site.Wrote piece id written outcome disk next) (known : file ∈ catalogNames)
    (path : catalog.path = site.settings.target.child file) (filed : Filed disk catalog) :
    Filed next catalog := by
  have goal : catalog.path.goal disk.current = site.catalogSpot file := by
    rw [laid.current]
    exact goal_file known path
  refine filed.still wrote.current (wrote.passable _) fun content => ?_
  rw [goal]
  exact wrote.catalogs file (catalogNames_plain file known).2.2.1 content

/-- On flawless grounds a catalog can be persisted. -/
theorem persist_able (firm : site.Firm) (able : site.Able) (laid : site.Laid disk)
    (neat : site.Neat disk) (calm : disk.Calm) (known : file ∈ catalogNames)
    (path : catalog.path = site.settings.target.child file) :
    ∃ next, catalog.persist disk = (.ok (), next) ∧ next.Calm := by
  obtain ⟨plain, longer, isCatalog, isSibling, _⟩ := catalogNames_plain file known
  have exact_ := firm.exact able.exact
  have sibling := (goal_sibling firm known path).1
  have receives := fun path writes => neat.receives exact_ laid.current writes (able.receives path writes)
  refine Catalog.persist_receives ?_ ?_ laid.sound calm ?_
  · rw [path]
    exact receives _ (.catalog isCatalog)
  · rw [sibling]
    exact receives _ (.catalog isSibling)
  · rw [sibling, path, Path.components_child _ longer, Path.components_child _ plain,
      List.dropLast_concat, List.dropLast_concat]

end Persist

end Site

end EoAssembly.Build
