import EoAssembly.Proofs.Build.Stages

/-!
Contract: what every operation of a build keeps, an assembly keeps.

A build changes its workspace through few operations: it adds and changes
records, writes files, and asks the outside.  A property that each of them keeps
holds at the end of every stage, cycle and assembly that started where it held.
In a cycle, only objects that are no objects of the project are fetched and pulled.

Owns `StageChange`, `Upkeep`, `Supply`, `Invariant`, and the traversal of the stages.
-/

namespace EoAssembly.Build

/-- The changes that stages make to records. -/
inductive StageChange : (Record → Record) → Prop where
  | registered (file : Path) : StageChange (asRegistered file)
  | parsed (document : Path) : StageChange (asParsed document)
  | optimized (document : Path) : StageChange (asOptimized document)
  | seenIn (document : Path) : StageChange (asSeenIn document)
  | discovered (count : Nat) : StageChange (asDiscovered count)
  | pulled (source : Path) (version hash : Option String) :
      StageChange (asPulled source version hash)

/-- The changes that give an object no source. -/
inductive LaterChange : (Record → Record) → Prop where
  | parsed (document : Path) : LaterChange (asParsed document)
  | optimized (document : Path) : LaterChange (asOptimized document)
  | seenIn (document : Path) : LaterChange (asSeenIn document)
  | discovered (count : Nat) : LaterChange (asDiscovered count)

theorem LaterChange.stageChange {change : Record → Record} (made : LaterChange change) :
    StageChange change := by
  cases made with
  | parsed document => exact .parsed document
  | optimized document => exact .optimized document
  | seenIn document => exact .seenIn document
  | discovered count => exact .discovered count

/-- A property of workspaces that every operation keeps which gives no object a source. -/
structure Upkeep (remote : Remote) (holds : Workspace → Prop) : Prop where
  add : ∀ id, (Step.addForeign id).Keeps holds
  update : ∀ id change, LaterChange change → (Step.updateForeign id change).Keeps holds
  write : ∀ path text, (Step.write path text).Keeps holds
  parse : ∀ id text, (Step.parse remote id text).Keeps holds

/-- A property of workspaces that every operation of a cycle keeps, where only names that are
sought are fetched and pulled. -/
structure Supply (settings : Settings) (remote : Remote) (sought : String → Prop)
    (holds : Workspace → Prop) : Prop extends Upkeep remote holds where
  pulled : ∀ name version hash, sought name →
    (Step.updateForeign name (asPulled (pulledPlace settings.target name) version hash)).Keeps holds
  fetch : ∀ name, sought name → (Step.fetch remote name).Keeps holds
  table : (Step.table remote).Keeps holds
  leaves : ∀ present name, holds present → isLocal present.foreign name = false → sought name

/-- A property of workspaces that every operation of a build keeps. -/
structure Invariant (remote : Remote) (holds : Workspace → Prop) : Prop where
  add : ∀ id, (Step.addForeign id).Keeps holds
  update : ∀ id change, StageChange change → (Step.updateForeign id change).Keeps holds
  addExternal : ∀ id, (Step.addExternal id).Keeps holds
  updateExternal : ∀ id change, (Step.updateExternal id change).Keeps holds
  write : ∀ path text, (Step.write path text).Keeps holds
  fetch : ∀ name, (Step.fetch remote name).Keeps holds
  parse : ∀ id text, (Step.parse remote id text).Keeps holds
  table : (Step.table remote).Keeps holds

theorem Invariant.upkeep {remote : Remote} {holds : Workspace → Prop}
    (invariant : Invariant remote holds) : Upkeep remote holds where
  add := invariant.add
  update id change made := invariant.update id change made.stageChange
  write := invariant.write
  parse := invariant.parse

/-- What every operation of a build keeps, those of a cycle keep. -/
theorem Invariant.supply {remote : Remote} {holds : Workspace → Prop}
    (invariant : Invariant remote holds) (settings : Settings) :
    Supply settings remote (fun _ => True) holds where
  toUpkeep := invariant.upkeep
  pulled name version hash _ := invariant.update name _ (.pulled _ version hash)
  fetch name _ := invariant.fetch name
  table := invariant.table
  leaves _ _ _ _ := trivial

namespace Upkeep

open Step (Keeps)

variable {settings : Settings} {remote : Remote} {holds : Workspace → Prop}

theorem save (upkeep : Upkeep remote holds) (document : Document) (path : Path) :
    (Step.save document path).Keeps holds := by
  intro before value after here ran
  obtain ⟨text, disk, _, written, moved⟩ := Step.yields_save.1 ran
  exact upkeep.write path text before () after here (Step.yields_write.2 ⟨disk, written, moved⟩)

/-! ## Parsing -/

theorem parseObject (upkeep : Upkeep remote holds) (id : String) :
    (Build.parseObject settings remote id).Keeps holds := by
  unfold Build.parseObject
  refine .bind .look fun _ => .bind .ofOutcome fun _ => .bind .ofOutcome fun _ => ?_
  refine .bind (upkeep.parse _ _) fun _ => .bind .ofOutcome fun document => ?_
  refine .bind (upkeep.save document _) fun _ => ?_
  exact .bind (upkeep.update _ _ (.parsed _)) fun _ => .pure

theorem parseEach (upkeep : Upkeep remote holds) (ids : List String) :
    (Build.parseEach settings remote ids).Keeps holds := by
  induction ids with
  | nil => exact .pure
  | cons id rest inductionHypothesis =>
    exact .bind (upkeep.parseObject id) fun _ => inductionHypothesis

theorem parseAll (upkeep : Upkeep remote holds) :
    (Build.parseAll settings remote).Keeps holds :=
  .bind .look fun pending => .bind (upkeep.parseEach pending) fun _ => .pure

/-! ## Optimizing -/

theorem runPasses (upkeep : Upkeep remote holds) (directory : Path) (passes : List Pass)
    (index : Nat) (document : Document) :
    (Build.runPasses directory index passes document).Keeps holds := by
  induction passes generalizing index document with
  | nil => exact .pure
  | cons pass rest inductionHypothesis =>
    refine .bind .ofOutcome fun next => .bind (upkeep.save next _) fun _ => ?_
    exact inductionHypothesis (index + 1) next

theorem optimizeDocument (upkeep : Upkeep remote holds) (target : Path) (id : String)
    (xmir : Path) : (Build.optimizeDocument target id xmir).Keeps holds := by
  unfold Build.optimizeDocument
  refine .bind .look fun disk => .ite .pure ?_
  refine .bind .load fun document => .bind (upkeep.runPasses _ _ _ document) fun optimized => ?_
  exact .bind (upkeep.save optimized _) fun _ => .pure

theorem optimizeEach (upkeep : Upkeep remote holds) (target : Path)
    (pending : List (String × Path)) : (Build.optimizeEach target pending).Keeps holds := by
  induction pending with
  | nil => exact .pure
  | cons first rest inductionHypothesis =>
    obtain ⟨id, xmir⟩ := first
    refine .bind (upkeep.optimizeDocument target id xmir) fun place => ?_
    exact .bind inductionHypothesis fun _ => .pure

theorem recordOptimized (upkeep : Upkeep remote holds) (done : List (String × Path)) :
    (Build.recordOptimized done).Keeps holds := by
  induction done with
  | nil => exact .pure
  | cons first rest inductionHypothesis =>
    exact .bind (upkeep.update _ _ (.optimized _)) fun _ => inductionHypothesis

theorem optimizeAll (upkeep : Upkeep remote holds) (target : Path) :
    (Build.optimizeAll target).Keeps holds := by
  refine .bind .look fun pending => .bind (upkeep.optimizeEach target pending) fun done => ?_
  exact .bind (upkeep.recordOptimized done) fun _ => .pure

/-! ## Discovering -/

theorem discoverName (upkeep : Upkeep remote holds) (optimized : Path) (name : String) :
    (Build.discoverName optimized name).Keeps holds := by
  unfold Build.discoverName
  have seen : (Step.updateForeign name (asSeenIn optimized)).Keeps holds :=
    upkeep.update name _ (.seenIn optimized)
  refine .bind .look fun known => .ite ?_ ?_
  · exact .bind (upkeep.add name) fun _ => .bind seen fun _ => .pure
  · exact .bind seen fun _ => .pure

theorem discoverNames (upkeep : Upkeep remote holds) (optimized : Path)
    (names : List String) : (Build.discoverNames optimized names).Keeps holds := by
  induction names with
  | nil => exact .pure
  | cons name rest inductionHypothesis =>
    refine .bind (upkeep.discoverName optimized name) fun _ => ?_
    exact .bind inductionHypothesis fun _ => .pure

theorem discoverObject (upkeep : Upkeep remote holds) (record : Record) :
    (Build.discoverObject record).Keeps holds := by
  unfold Build.discoverObject
  cases record.optimized with
  | none => exact .pure
  | some optimized =>
    refine .bind .look fun disk => .bind .ofOutcome fun names => ?_
    refine .bind (upkeep.discoverNames optimized names) fun _ => ?_
    exact .bind (upkeep.update _ _ (.discovered _)) fun _ => .pure

theorem discoverEach (upkeep : Upkeep remote holds) (records : List Record) :
    (Build.discoverEach records).Keeps holds := by
  induction records with
  | nil => exact .pure
  | cons record rest inductionHypothesis =>
    refine .bind (upkeep.discoverObject record) fun _ => ?_
    exact .bind inductionHypothesis fun _ => .pure

theorem discoverAll (upkeep : Upkeep remote holds) : Build.discoverAll.Keeps holds :=
  .bind .look fun pending => upkeep.discoverEach pending

end Upkeep

namespace Supply

open Step (Keeps)

variable {settings : Settings} {remote : Remote} {sought : String → Prop}
  {holds : Workspace → Prop} {name : String}

/-! ## Pulling -/

theorem fetchSource (supply : Supply settings remote sought holds) (isSought : sought name)
    (source log : Path) : (Build.fetchSource remote name source log).Keeps holds := by
  refine .bind (supply.fetch name isSought) fun text => .bind (supply.write source text) fun _ => ?_
  exact .bind .look fun instant => supply.write log _

theorem recordPulled (supply : Supply settings remote sought holds) (isSought : sought name)
    (hash : Option String) : (Build.recordPulled settings remote name
      (pulledPlace settings.target name) hash).Keeps holds := by
  refine .bind (supply.add name) fun _ => ?_
  refine .bind (supply.pulled name _ hash isSought) fun record => ?_
  exact .ite (.bind (supply.parseObject name) fun _ => .pure) .pure

theorem pinned (supply : Supply settings remote sought holds) (known : Option HashTable)
    (name : String) : (Build.pinned remote known name).Keeps holds := by
  unfold Build.pinned
  cases (ObjectName.split name).2 with
  | none => exact .pure
  | some version =>
    refine .bind ?_ fun table => .bind .ofOutcome fun _ => .pure
    cases known with
    | some table => exact .pure
    | none => exact supply.table

theorem pullPinned (supply : Supply settings remote sought holds) (isSought : sought name)
    (hash : Option String) :
    (Build.pullPinned settings remote name hash).Keeps holds := by
  have recorded := supply.recordPulled isSought hash
  refine .bind .look fun disk => ?_
  split
  · exact .pure
  · exact .bind (supply.fetchSource isSought _ _) fun _ => .bind recorded fun _ => .pure
  · exact .bind .look fun present => .ite (.bind recorded fun _ => .pure) .pure

theorem pullName (supply : Supply settings remote sought holds)
    (known : Option HashTable) (name : String) :
    (Build.pullName settings remote known name).Keeps holds := by
  intro before answer after here ran
  obtain ⟨left, between, looked, ranRest⟩ := Step.yields_bind.1 ran
  obtain ⟨isLeft, rfl⟩ := Step.yields_look.1 looked
  have rest : left = false → Keeps (do
      Step.ofOutcome (ObjectName.checkPlace name)
      let pin ← Build.pinned remote known name
      let fetched ← Build.pullPinned settings remote name pin.1
      pure (fetched, pin.2)) holds := by
    intro notLocal
    have isSought := supply.leaves before name here (isLeft.trans notLocal)
    refine .bind .ofOutcome fun _ => .bind (supply.pinned known name) fun pin => ?_
    exact .bind (supply.pullPinned isSought pin.1) fun _ => .pure
  cases left with
  | true => exact Keeps.pure before answer after here ranRest
  | false => exact rest rfl before answer after here ranRest

theorem pullEach (supply : Supply settings remote sought holds)
    (known : Option HashTable) (names : List String) : (Build.pullEach settings remote known names).Keeps holds := by
  induction names generalizing known with
  | nil => exact .pure
  | cons name rest inductionHypothesis =>
    refine .bind (supply.pullName known name) fun pulled => ?_
    exact .bind (inductionHypothesis pulled.2) fun _ => .pure

theorem pullAll (supply : Supply settings remote sought holds) :
    (Build.pullAll settings remote).Keeps holds :=
  .bind .look fun names => supply.pullEach none names

/-! ## Cycles -/

theorem cycle (supply : Supply settings remote sought holds) :
    (Build.cycle settings remote).Keeps holds := by
  refine .bind supply.parseAll fun _ => .bind (supply.optimizeAll settings.target) fun _ => ?_
  exact .bind supply.discoverAll fun _ => supply.pullAll

theorem settle (supply : Supply settings remote sought holds) (bound : Nat) :
    (Build.settle settings remote bound).Keeps holds := by
  induction bound with
  | zero => exact .fail
  | succ left inductionHypothesis =>
    refine .bind .look fun before => .bind supply.cycle fun fetched => ?_
    refine .bind .look fun after => .ite .pure ?_
    exact .bind inductionHypothesis fun _ => .pure

end Supply

/-! ## Registering -/

namespace Invariant

open Step (Keeps)

variable {settings : Settings} {remote : Remote} {holds : Workspace → Prop}

theorem registerFile (invariant : Invariant remote holds) (file : Path) :
    (Build.registerFile settings file).Keeps holds := by
  have registered : Step.Keeps (do
      let id := ObjectName.ofRelativePath file sourceExtension
      let source := settings.sources.join file
      let _ ← Step.addForeign id
      let _ ← Step.updateForeign id (asRegistered source)
      if settings.withVersions then
        let _ ← Step.addExternal id
        let _ ← Step.updateExternal id (asExported source settings.project.version)) holds := by
    refine .bind (invariant.add _) fun _ => ?_
    refine .bind (invariant.update _ _ (.registered _)) fun _ => .ite ?_ .pure
    exact .bind (invariant.addExternal _) fun _ =>
      .bind (invariant.updateExternal _ _) fun _ => .pure
  exact .ite (.bind .ofOutcome fun _ => registered) registered

theorem registerFiles (invariant : Invariant remote holds) (files : List Path) :
    (Build.registerFiles settings files).Keeps holds := by
  induction files with
  | nil => exact .pure
  | cons file rest inductionHypothesis =>
    exact .bind (invariant.registerFile file) fun _ => inductionHypothesis

theorem register (invariant : Invariant remote holds) :
    (Build.register settings).Keeps holds := by
  have registered : ∀ disk : Disk, Step.Keeps (do
      let included ← Step.ofOutcome (Settings.patterns settings.included)
      let excluded ← Step.ofOutcome (Settings.patterns settings.excluded)
      let files := selectedFiles disk settings.sources included excluded
      Build.registerFiles settings files
      pure files.length) holds := by
    intro disk
    refine .bind .ofOutcome fun included => .bind .ofOutcome fun excluded => ?_
    exact .bind (invariant.registerFiles _) fun _ => .pure
  exact .bind .look fun disk => .ite (.bind .fail fun _ => registered disk) (registered disk)

end Invariant

end EoAssembly.Build
