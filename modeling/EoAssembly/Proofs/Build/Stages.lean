import EoAssembly.Build.Assembly
import EoAssembly.Proofs.Build.References
import EoAssembly.Proofs.Build.Step

/-!
Contract: what the functions of a build did when they went through.

A function that went through is told by the operations that it ran one after the other, by the
workspaces between them, and by what it looked at.  What is to be known of a stage follows from its
law, so that its text is opened once.

Owns one law for each function of a build.

Does not own: what a stage did that failed, and what every operation keeps.
-/

namespace EoAssembly.Build

open ObjectName (checkPlace)

variable {settings : Settings} {remote : Remote} {before after : Workspace} {id name : String}
  {count : Nat}

/-! ## Registering -/

/-- A file whose name passes is registered, and exported where the project has versions. -/
theorem yields_registerFile {file : Path} :
    (registerFile settings file).Yields before () after ↔
      (settings.strictNames = true → checkName file = .ok ()) ∧
      ∃ created added record marked,
        (Step.addForeign (idOf file)).Yields before created added ∧
        (Step.updateForeign (idOf file) (asRegistered (settings.sources.join file))).Yields added
          record marked ∧
        ((settings.withVersions = true ∧ ∃ createdOut addedOut recordOut,
          (Step.addExternal (idOf file)).Yields marked createdOut addedOut ∧
          (Step.updateExternal (idOf file) (asExported (settings.sources.join file)
            settings.project.version)).Yields addedOut recordOut after) ∨
        (¬settings.withVersions = true ∧ marked = after)) := by
  -- The check comes first, and the rest is the same whether it is made or not.
  have checked : (registerFile settings file).Yields before () after ↔
      (settings.strictNames = true → checkName file = .ok ()) ∧ Step.Yields (do
        let _ ← Step.addForeign (idOf file)
        let _ ← Step.updateForeign (idOf file) (asRegistered (settings.sources.join file))
        if settings.withVersions then
          let _ ← Step.addExternal (idOf file)
          let _ ← Step.updateExternal (idOf file)
            (asExported (settings.sources.join file) settings.project.version)) before () after := by
    unfold registerFile
    by_cases strict : settings.strictNames = true
    · simp only [strict, if_true, Step.yields_bind, Step.yields_ofOutcome, true_imp_iff]
      constructor
      · rintro ⟨_, _, ⟨checks, rfl⟩, rest⟩
        exact ⟨checks, rest⟩
      · exact fun ⟨checks, rest⟩ => ⟨(), before, ⟨checks, rfl⟩, rest⟩
    · rw [if_neg strict, and_iff_right fun wrong => absurd wrong strict]
      rfl
  rw [checked]
  refine and_congr_right fun _ => ?_
  simp only [Step.yields_bind, Step.yields_ite, Step.yields_pure]
  constructor
  · rintro ⟨created, added, adds, record, marked, updates, exports⟩
    refine ⟨created, added, record, marked, adds, updates, ?_⟩
    rcases exports with ⟨versions, createdOut, addedOut, addsOut, recordOut, _, updatesOut, _, rfl⟩ |
      ⟨unversioned, _, rfl⟩
    · exact Or.inl ⟨versions, createdOut, addedOut, recordOut, addsOut, updatesOut⟩
    · exact Or.inr ⟨unversioned, rfl⟩
  · rintro ⟨created, added, record, marked, adds, updates, exports⟩
    refine ⟨created, added, adds, record, marked, updates, ?_⟩
    rcases exports with ⟨versions, createdOut, addedOut, recordOut, addsOut, updatesOut⟩ |
      ⟨unversioned, rfl⟩
    · exact Or.inl ⟨versions, createdOut, addedOut, addsOut, recordOut, after, updatesOut, trivial, rfl⟩
    · exact Or.inr ⟨unversioned, trivial, rfl⟩

/-- The files that the patterns of a project select are registered. -/
theorem yields_register : (register settings).Yields before count after ↔
    before.disk.isDirectory settings.sources = true ∧
      (∃ included, Settings.patterns settings.included = .ok included) ∧
      (∃ excluded, Settings.patterns settings.excluded = .ok excluded) ∧
      count = (registeredFiles settings before.disk).length ∧
      (registerFiles settings (registeredFiles settings before.disk)).Yields before () after := by
  have files : ∀ {included excluded}, Settings.patterns settings.included = .ok included →
      Settings.patterns settings.excluded = .ok excluded →
      selectedFiles before.disk settings.sources included excluded =
        registeredFiles settings before.disk := by
    intro included excluded isIncluded isExcluded
    unfold registeredFiles
    rw [isIncluded, isExcluded]
  simp only [register, Step.yields_bind, Step.yields_look, Step.yields_ite,
    Step.yields_ofOutcome, Step.yields_pure]
  constructor
  · rintro ⟨_, _, ⟨rfl, rfl⟩, ⟨_, _, _, wrong, _⟩ | ⟨isDirectory, included, _, ⟨isIncluded, rfl⟩,
      excluded, _, ⟨isExcluded, rfl⟩, _, last, ranFiles, rfl, rfl⟩⟩
    · exact absurd wrong Step.yields_fail
    · rw [files isIncluded isExcluded] at ranFiles ⊢
      exact ⟨by simpa using isDirectory, ⟨_, isIncluded⟩, ⟨_, isExcluded⟩, rfl, ranFiles⟩
  · rintro ⟨isDirectory, ⟨included, isIncluded⟩, ⟨excluded, isExcluded⟩, rfl, ranFiles⟩
    rw [← files isIncluded isExcluded] at ranFiles ⊢
    exact ⟨_, _, ⟨rfl, rfl⟩, Or.inr ⟨by simpa using isDirectory, included, _, ⟨isIncluded, rfl⟩,
      excluded, _, ⟨isExcluded, rfl⟩, _, after, ranFiles, rfl, rfl⟩⟩

/-! ## Parsing -/

theorem sourceOf_eq_ok {catalog : Catalog} {path : Path} :
    sourceOf catalog id = .ok path ↔
      ∃ record, catalog.find? id = some record ∧ record.source = some path := by
  unfold sourceOf Catalog.get
  cases found : catalog.find? id with
  | none => simp
  | some record =>
    unfold Record.requireSource
    cases isSource : record.source <;> simp [isSource]

theorem yields_parseObject {place : Path} :
    (parseObject settings remote id).Yields before place after ↔
      place = parsedPlace settings.target id ∧
      ∃ source text made document parsed saved record,
        sourceOf before.foreign id = .ok source ∧ readSource before.disk source = .ok text ∧
        (Step.parse remote id text).Yields before made parsed ∧
        Document.ofText made (parsedPlace settings.target id).text = .ok document ∧
        (Step.save document (parsedPlace settings.target id)).Yields parsed () saved ∧
        (Step.updateForeign id (asParsed (parsedPlace settings.target id))).Yields saved record
          after := by
  simp only [parseObject, Step.yields_bind, Step.yields_look, Step.yields_ofOutcome,
    Step.yields_pure]
  constructor
  · rintro ⟨_, _, ⟨rfl, rfl⟩, source, _, ⟨isSource, rfl⟩, text, _, ⟨reads, rfl⟩, made, parsed, parses,
      document, _, ⟨isDocument, rfl⟩, _, saved, saves, record, _, updates, rfl, rfl⟩
    exact ⟨rfl, source, text, made, document, parsed, saved, record, isSource, reads, parses,
      isDocument, saves, updates⟩
  · rintro ⟨rfl, source, text, made, document, parsed, saved, record, isSource, reads, parses,
      isDocument, saves, updates⟩
    exact ⟨_, _, ⟨rfl, rfl⟩, source, _, ⟨isSource, rfl⟩, text, _, ⟨reads, rfl⟩, made, parsed, parses,
      document, _, ⟨isDocument, rfl⟩, _, saved, saves, record, _, updates, rfl, rfl⟩

theorem yields_parseAll :
    (parseAll settings remote).Yields before count after ↔
      count = (unparsed before.foreign).length ∧
      (parseEach settings remote (unparsed before.foreign)).Yields before () after := by
  simp only [parseAll, Step.yields_bind, Step.yields_look, Step.yields_pure]
  constructor
  · rintro ⟨_, _, ⟨rfl, rfl⟩, _, _, ran, rfl, rfl⟩
    exact ⟨rfl, ran⟩
  · rintro ⟨rfl, ran⟩
    exact ⟨_, _, ⟨rfl, rfl⟩, (), after, ran, rfl, rfl⟩

/-! ## Optimizing -/

theorem yields_runPasses_cons {directory : Path} {index : Nat} {pass : Pass} {rest : List Pass}
    {document last : Document} :
    (runPasses directory index (pass :: rest) document).Yields before last after ↔
      ∃ next between, pass.apply document = .ok next ∧
        (Step.save next (directory.child (Pass.stepFile index pass))).Yields before () between ∧
        (runPasses directory (index + 1) rest next).Yields between last after := by
  simp only [runPasses, Step.yields_bind, Step.yields_ofOutcome]
  constructor
  · rintro ⟨next, _, ⟨applies, rfl⟩, _, between, saves, ran⟩
    exact ⟨next, between, applies, saves, ran⟩
  · rintro ⟨next, between, applies, saves, ran⟩
    exact ⟨next, before, ⟨applies, rfl⟩, (), between, saves, ran⟩

/-- An optimized form that is there is kept, and one that is missing is made and written. -/
theorem yields_optimizeDocument {target xmir place : Path} :
    (optimizeDocument target id xmir).Yields before place after ↔
      place = optimizedPlace target id ∧
      ((before.disk.exists? (optimizedPlace target id) = true ∧ before = after) ∨
        (before.disk.exists? (optimizedPlace target id) = false ∧ ∃ document optimized between,
          Document.load before.disk xmir = .ok document ∧
          (runPasses (stepsPlace target id) 0 Pass.all document).Yields before optimized between ∧
          (Step.save optimized (optimizedPlace target id)).Yields between () after)) := by
  simp only [optimizeDocument, Step.yields_bind, Step.yields_look, Step.yields_ite,
    Step.yields_pure, Step.yields_load]
  constructor
  · rintro ⟨_, _, ⟨rfl, rfl⟩, ⟨there, rfl, rfl⟩ | ⟨missing, document, _, ⟨loads, rfl⟩, optimized,
      between, ran, _, _, saves, rfl, rfl⟩⟩
    · exact ⟨rfl, Or.inl ⟨there, rfl⟩⟩
    · exact ⟨rfl, Or.inr ⟨by simpa using missing, document, optimized, between, loads, ran, saves⟩⟩
  · rintro ⟨rfl, ⟨there, rfl⟩ | ⟨missing, document, optimized, between, loads, ran, saves⟩⟩
    · exact ⟨_, _, ⟨rfl, rfl⟩, Or.inl ⟨there, rfl, rfl⟩⟩
    · exact ⟨_, _, ⟨rfl, rfl⟩, Or.inr ⟨by simp [missing], document, before, ⟨loads, rfl⟩, optimized,
        between, ran, (), after, saves, rfl, rfl⟩⟩

theorem yields_optimizeEach_cons {target xmir : Path} {rest done : List (String × Path)} :
    (optimizeEach target ((id, xmir) :: rest)).Yields before done after ↔
      ∃ place between others, (optimizeDocument target id xmir).Yields before place between ∧
        (optimizeEach target rest).Yields between others after ∧ done = (id, place) :: others := by
  simp only [optimizeEach, Step.yields_bind, Step.yields_pure]
  constructor
  · rintro ⟨place, between, ran, others, _, ranRest, rfl, rfl⟩
    exact ⟨place, between, others, ran, ranRest, rfl⟩
  · rintro ⟨place, between, others, ran, ranRest, rfl⟩
    exact ⟨place, between, ran, others, after, ranRest, rfl, rfl⟩

theorem yields_optimizeAll {target : Path} :
    (optimizeAll target).Yields before count after ↔
      ∃ done between, (optimizeEach target (unoptimized before.foreign)).Yields before done between ∧
        (recordOptimized done).Yields between () after ∧ count = done.length := by
  simp only [optimizeAll, optimizeThese, Step.yields_bind, Step.yields_look, Step.yields_pure]
  constructor
  · rintro ⟨_, _, ⟨rfl, rfl⟩, done, between, ran, _, _, records, rfl, rfl⟩
    exact ⟨done, between, ran, records, rfl⟩
  · rintro ⟨done, between, ran, records, rfl⟩
    exact ⟨_, _, ⟨rfl, rfl⟩, done, between, ran, (), after, records, rfl, rfl⟩

/-! ## Discovering -/

/-- A name that is seen in a document is added unless it is known, and remembers the document. -/
theorem yields_discoverName {document : Path} :
    (discoverName document name).Yields before count after ↔
      (before.foreign.contains name = true ∧ count = 0 ∧ ∃ record,
        (Step.updateForeign name (asSeenIn document)).Yields before record after) ∨
      (before.foreign.contains name = false ∧ count = 1 ∧ ∃ created added record,
        (Step.addForeign name).Yields before created added ∧
        (Step.updateForeign name (asSeenIn document)).Yields added record after) := by
  simp only [discoverName, Step.yields_bind, Step.yields_look, Step.yields_ite, Step.yields_pure]
  constructor
  · rintro ⟨_, _, ⟨rfl, rfl⟩, ⟨unknown, created, added, adds, record, _, updates, rfl, rfl⟩ |
      ⟨known, record, _, updates, rfl, rfl⟩⟩
    · have missing : before.foreign.contains name = false := by simpa using unknown
      exact Or.inr ⟨missing, by simp [missing], created, added, record, adds, updates⟩
    · have there : before.foreign.contains name = true := by simpa using known
      exact Or.inl ⟨there, by simp [there], record, updates⟩
  · rintro (⟨known, rfl, record, updates⟩ | ⟨unknown, rfl, created, added, record, adds, updates⟩)
    · exact ⟨_, _, ⟨rfl, rfl⟩, Or.inr ⟨by simp [known], record, after, updates, by simp [known], rfl⟩⟩
    · exact ⟨_, _, ⟨rfl, rfl⟩, Or.inl ⟨by simp [unknown], created, added, adds, record, after, updates,
        by simp [unknown], rfl⟩⟩

theorem yields_discoverNames_cons {document : Path} {rest : List String} :
    (discoverNames document (name :: rest)).Yields before count after ↔
      ∃ first between others, (discoverName document name).Yields before first between ∧
        (discoverNames document rest).Yields between others after ∧ count = first + others := by
  simp only [discoverNames, Step.yields_bind, Step.yields_pure]
  constructor
  · rintro ⟨first, between, ran, others, _, ranRest, rfl, rfl⟩
    exact ⟨first, between, others, ran, ranRest, rfl⟩
  · rintro ⟨first, between, others, ran, ranRest, rfl⟩
    exact ⟨first, between, ran, others, after, ranRest, rfl, rfl⟩

theorem discoverObject_of_none {record : Record} (isNone : record.optimized = none) :
    discoverObject record = pure 0 := by
  unfold discoverObject
  rw [isNone]

theorem yields_discoverObject {record : Record} {document : Path}
    (isOptimized : record.optimized = some document) :
    (discoverObject record).Yields before count after ↔
      ∃ names between marked, namesIn before.disk document = .ok names ∧
        (discoverNames document names).Yields before count between ∧
        (Step.updateForeign record.id (asDiscovered names.length)).Yields between marked after := by
  simp only [discoverObject, isOptimized, Step.yields_bind, Step.yields_look,
    Step.yields_ofOutcome, Step.yields_pure]
  constructor
  · rintro ⟨_, _, ⟨rfl, rfl⟩, names, _, ⟨reads, rfl⟩, _, between, ran, marked, _, updates, rfl, rfl⟩
    exact ⟨names, between, marked, reads, ran, updates⟩
  · rintro ⟨names, between, marked, reads, ran, updates⟩
    exact ⟨_, _, ⟨rfl, rfl⟩, names, _, ⟨reads, rfl⟩, count, between, ran, marked, after, updates, rfl,
      rfl⟩

theorem yields_discoverEach_cons {record : Record} {rest : List Record} :
    (discoverEach (record :: rest)).Yields before count after ↔
      ∃ first between others, (discoverObject record).Yields before first between ∧
        (discoverEach rest).Yields between others after ∧ count = first + others := by
  simp only [discoverEach, Step.yields_bind, Step.yields_pure]
  constructor
  · rintro ⟨first, between, ran, others, _, ranRest, rfl, rfl⟩
    exact ⟨first, between, others, ran, ranRest, rfl⟩
  · rintro ⟨first, between, others, ran, ranRest, rfl⟩
    exact ⟨first, between, ran, others, after, ranRest, rfl, rfl⟩

theorem yields_discoverAll :
    discoverAll.Yields before count after ↔
      (discoverEach before.foreign.notDiscovered).Yields before count after := by
  simp only [discoverAll, Step.yields_bind, Step.yields_look]
  constructor
  · rintro ⟨_, _, ⟨rfl, rfl⟩, ran⟩
    exact ran
  · exact fun ran => ⟨_, _, ⟨rfl, rfl⟩, ran⟩

/-! ## Pinning a name -/

theorem yields_tableFor {known : Option HashTable} {table : HashTable} :
    (tableFor remote known).Yields before table after ↔
      (known = some table ∧ before = after) ∨
      (known = none ∧ (Step.table remote).Yields before table after) := by
  unfold tableFor
  cases known with
  | some other => simp [Step.yields_pure]
  | none => simp

/-- A name without a version is pinned to nothing, and one with a version to its hash in the
table. -/
theorem yields_pinned {known : Option HashTable} {result : Option String × Option HashTable} :
    (pinned remote known name).Yields before result after ↔
      ((ObjectName.split name).2 = none ∧ result = (none, known) ∧ before = after) ∨
      ∃ version table hash, (ObjectName.split name).2 = some version ∧
        (tableFor remote known).Yields before table after ∧ table.get version = .ok hash ∧
        result = (some hash, some table) := by
  unfold pinned
  cases (ObjectName.split name).2 with
  | none => simp [Step.yields_pure, eq_comm]
  | some version =>
    simp only [Step.yields_bind, Step.yields_ofOutcome, Step.yields_pure]
    constructor
    · rintro ⟨table, _, loads, hash, _, ⟨gets, rfl⟩, rfl, rfl⟩
      exact Or.inr ⟨version, table, hash, rfl, loads, gets, rfl⟩
    · rintro (⟨wrong, _⟩ | ⟨_, table, hash, isVersion, loads, gets, rfl⟩)
      · exact absurd wrong (by simp)
      · rw [← Option.some.inj isVersion] at gets
        exact ⟨table, after, loads, hash, after, ⟨gets, rfl⟩, rfl, rfl⟩

/-! ## Pulling -/

theorem yields_fetchSource {source log : Path} :
    (fetchSource remote name source log).Yields before () after ↔
      ∃ text fetched written, (Step.fetch remote name).Yields before text fetched ∧
        (Step.write source text).Yields fetched () written ∧
        (Step.write log (logText source written.instant)).Yields written () after := by
  simp only [fetchSource, Step.yields_bind, Step.yields_look]
  constructor
  · rintro ⟨text, fetched, fetches, _, written, writes, _, _, ⟨rfl, rfl⟩, logs⟩
    exact ⟨text, fetched, written, fetches, writes, logs⟩
  · rintro ⟨text, fetched, written, fetches, writes, logs⟩
    exact ⟨text, fetched, fetches, (), written, writes, _, _, ⟨rfl, rfl⟩, logs⟩

theorem yields_recordPulled {source : Path} {hash : Option String} :
    (recordPulled settings remote name source hash).Yields before () after ↔
      ∃ created added record updated, (Step.addForeign name).Yields before created added ∧
        (Step.updateForeign name (asPulled source (ObjectName.split name).2 hash)).Yields added record
          updated ∧
        ((record.xmir.isNone = true ∧
            ∃ place, (parseObject settings remote name).Yields updated place after) ∨
          (¬record.xmir.isNone = true ∧ updated = after)) := by
  simp only [recordPulled, Step.yields_bind, Step.yields_ite, Step.yields_pure]
  constructor
  · rintro ⟨created, added, adds, record, updated, updates, rest⟩
    refine ⟨created, added, record, updated, adds, updates, ?_⟩
    rcases rest with ⟨unparsed, place, _, parses, _, rfl⟩ | ⟨parsed, _, rfl⟩
    · exact Or.inl ⟨unparsed, place, parses⟩
    · exact Or.inr ⟨parsed, rfl⟩
  · rintro ⟨created, added, record, updated, adds, updates, rest⟩
    refine ⟨created, added, adds, record, updated, updates, ?_⟩
    rcases rest with ⟨unparsed, place, parses⟩ | ⟨parsed, rfl⟩
    · exact Or.inl ⟨unparsed, place, after, parses, trivial, rfl⟩
    · exact Or.inr ⟨parsed, trivial, rfl⟩

/-- What was done for a name whose source and log are at two paths, and how many sources were
fetched. -/
inductive Pulls (settings : Settings) (remote : Remote) (name : String) (source log : Path)
    (hash : Option String) : Nat → Workspace → Workspace → Prop where
  /-- The log stopped the name. -/
  | left {before : Workspace}
    (choice : pullChoice before.disk settings.overwrite source log = .leave) :
    Pulls settings remote name source log hash 0 before before
  /-- The source was fetched and recorded. -/
  | fetched {before between after : Workspace}
    (choice : pullChoice before.disk settings.overwrite source log = .fetch)
    (fetches : (fetchSource remote name source log).Yields before () between)
    (records : (recordPulled settings remote name source hash).Yields between () after) :
    Pulls settings remote name source log hash 1 before after
  /-- The source was there and became recorded. -/
  | recorded {before after : Workspace}
    (choice : pullChoice before.disk settings.overwrite source log = .keep)
    (unknown : isRecorded before.foreign name source = false)
    (records : (recordPulled settings remote name source hash).Yields before () after) :
    Pulls settings remote name source log hash 0 before after
  /-- The source was there and recorded. -/
  | kept {before : Workspace}
    (choice : pullChoice before.disk settings.overwrite source log = .keep)
    (known : isRecorded before.foreign name source = true) :
    Pulls settings remote name source log hash 0 before before

theorem yields_pullPinned {hash : Option String} :
    (pullPinned settings remote name hash).Yields before count after ↔
      Pulls settings remote name (pulledPlace settings.target name) (logPlace settings.protocols name)
        hash count before after := by
  simp only [pullPinned, Step.yields_bind, Step.yields_look]
  constructor
  · rintro ⟨_, _, ⟨rfl, rfl⟩, ran⟩
    split at ran
    · next leave =>
      obtain ⟨rfl, rfl⟩ := Step.yields_pure.1 ran
      exact .left leave
    · next fetch =>
      simp only [Step.yields_bind, Step.yields_pure] at ran
      obtain ⟨_, between, fetches, _, _, records, rfl, rfl⟩ := ran
      exact .fetched fetch fetches records
    · next keep =>
      simp only [Step.yields_bind, Step.yields_look, Step.yields_ite, Step.yields_pure] at ran
      obtain ⟨_, _, ⟨rfl, rfl⟩, ⟨unknown, _, _, records, rfl, rfl⟩ | ⟨known, rfl, rfl⟩⟩ := ran
      · exact .recorded keep (by simpa using unknown) records
      · exact .kept keep (by simpa using known)
  · intro pulls
    refine ⟨_, _, ⟨rfl, rfl⟩, ?_⟩
    cases pulls with
    | left choice =>
      rw [choice]
      exact Step.yields_pure.2 ⟨rfl, rfl⟩
    | fetched choice fetches records =>
      rw [choice]
      simp only [Step.yields_bind, Step.yields_pure]
      exact ⟨(), _, fetches, (), after, records, trivial, rfl⟩
    | recorded choice unknown records =>
      rw [choice]
      simp only [Step.yields_bind, Step.yields_look, Step.yields_ite, Step.yields_pure]
      exact ⟨_, _, ⟨rfl, rfl⟩, Or.inl ⟨by simpa using unknown, (), after, records, trivial, rfl⟩⟩
    | kept choice known =>
      rw [choice]
      simp only [Step.yields_bind, Step.yields_look, Step.yields_ite, Step.yields_pure]
      exact ⟨_, _, ⟨rfl, rfl⟩, Or.inr ⟨by simpa using known, trivial, rfl⟩⟩

theorem yields_pullName {known : Option HashTable} {result : Nat × Option HashTable} :
    (pullName settings remote known name).Yields before result after ↔
      (isLocal before.foreign name = true ∧ result = (0, known) ∧ before = after) ∨
      (isLocal before.foreign name = false ∧ checkPlace name = .ok () ∧ ∃ hash ready,
        (pinned remote known name).Yields before (hash, result.2) ready ∧
        (pullPinned settings remote name hash).Yields ready result.1 after) := by
  simp only [pullName, Step.yields_bind, Step.yields_look, Step.yields_ite, Step.yields_ofOutcome,
    Step.yields_pure]
  constructor
  · rintro ⟨_, _, ⟨rfl, rfl⟩, ⟨ofProject, rfl, rfl⟩ | ⟨sought, _, _, ⟨passes, rfl⟩, ⟨hash, table⟩,
      ready, pins, fetched, _, pulls, rfl, rfl⟩⟩
    · exact Or.inl ⟨ofProject, rfl, rfl⟩
    · exact Or.inr ⟨by simpa using sought, passes, hash, ready, pins, pulls⟩
  · rintro (⟨ofProject, rfl, rfl⟩ | ⟨sought, passes, hash, ready, pins, pulls⟩)
    · exact ⟨_, _, ⟨rfl, rfl⟩, Or.inl ⟨ofProject, rfl, rfl⟩⟩
    · exact ⟨_, _, ⟨rfl, rfl⟩, Or.inr ⟨by simpa using sought, (), before, ⟨passes, rfl⟩,
        (hash, result.2), ready, pins, result.1, after, pulls, rfl, rfl⟩⟩

theorem yields_pullEach_cons {known : Option HashTable} {rest : List String} :
    (pullEach settings remote known (name :: rest)).Yields before count after ↔
      ∃ first table between others,
        (pullName settings remote known name).Yields before (first, table) between ∧
        (pullEach settings remote table rest).Yields between others after ∧
        count = first + others := by
  simp only [pullEach, Step.yields_bind, Step.yields_pure]
  constructor
  · rintro ⟨⟨first, table⟩, between, ran, others, _, ranRest, rfl, rfl⟩
    exact ⟨first, table, between, others, ran, ranRest, rfl⟩
  · rintro ⟨first, table, between, others, ran, ranRest, rfl⟩
    exact ⟨(first, table), between, ran, others, after, ranRest, rfl, rfl⟩

theorem yields_pullAll :
    (pullAll settings remote).Yields before count after ↔
      (pullEach settings remote none (referredNames before.disk before.foreign)).Yields before count
        after := by
  simp only [pullAll, Step.yields_bind, Step.yields_look]
  constructor
  · rintro ⟨_, _, ⟨rfl, rfl⟩, ran⟩
    exact ran
  · exact fun ran => ⟨_, _, ⟨rfl, rfl⟩, ran⟩

/-! ## Cycles -/

theorem yields_cycle :
    (cycle settings remote).Yields before count after ↔
      ∃ first parsed second optimized third discovered,
        (parseAll settings remote).Yields before first parsed ∧
        (optimizeAll settings.target).Yields parsed second optimized ∧
        discoverAll.Yields optimized third discovered ∧
        (pullAll settings remote).Yields discovered count after := by
  simp only [cycle, Step.yields_bind]
  constructor
  · rintro ⟨first, parsed, parses, second, optimized, optimizes, third, discovered, discovers, pulls⟩
    exact ⟨first, parsed, second, optimized, third, discovered, parses, optimizes, discovers, pulls⟩
  · rintro ⟨first, parsed, second, optimized, third, discovered, parses, optimizes, discovers, pulls⟩
    exact ⟨first, parsed, parses, second, optimized, optimizes, third, discovered, discovers, pulls⟩

/-- A bounded build runs one cycle, and then those that are left when it changed the
state of an object. -/
theorem yields_settle {bound : Nat} {answer : Nat × Nat} :
    (settle settings remote (bound + 1)).Yields before answer after ↔
      ∃ fetched between, (cycle settings remote).Yields before fetched between ∧
        ((before.foreign.state = between.foreign.state ∧ (1, fetched) = answer ∧
            between = after) ∨
          (before.foreign.state ≠ between.foreign.state ∧ ∃ others,
            (settle settings remote bound).Yields between others after ∧
              (others.1 + 1, fetched + others.2) = answer)) := by
  simp only [settle, Step.yields_bind, Step.yields_look, Step.yields_ite, Step.yields_pure]
  constructor
  · rintro ⟨_, _, ⟨rfl, rfl⟩, fetched, between, ran, _, _, ⟨rfl, rfl⟩, branches⟩
    refine ⟨fetched, between, ran, branches.imp_right ?_⟩
    rintro ⟨changed, others, _, ranRest, same, rfl⟩
    exact ⟨changed, others, ranRest, same⟩
  · rintro ⟨fetched, between, ran, branches⟩
    refine ⟨_, _, ⟨rfl, rfl⟩, fetched, between, ran, _, _, ⟨rfl, rfl⟩, branches.imp_right ?_⟩
    rintro ⟨changed, others, ranRest, same⟩
    exact ⟨changed, others, after, ranRest, same, rfl⟩

/-- Opening the catalogs again changes nothing else. -/
theorem yields_reopen {directory : Path} :
    (Workspace.reopen directory).Yields before () after ↔ ∃ foreign external,
      after = { before with foreign := foreign, external := external } ∧
      Catalog.openAt before.disk (directory.child Catalogs.foreignFile) = .ok foreign ∧
      Catalog.openAt before.disk (directory.child Catalogs.externalFile) = .ok external := by
  unfold Step.Yields Workspace.reopen
  rw [Step.perform_ofAction]
  unfold Catalogs.openIn
  cases Catalog.openAt before.disk (directory.child Catalogs.foreignFile) with
  | error failure => simp
  | ok foreign =>
    cases Catalog.openAt before.disk (directory.child Catalogs.externalFile) with
    | error failure => simp
    | ok external => simp [eq_comm]

/-- An assembly opens the catalogs, registers, and settles. -/
theorem yields_assemble {answer : Assembly} :
    (assemble settings remote).Yields before answer after ↔ ∃ opened registered,
      (Workspace.reopen settings.target).Yields before () opened ∧
      (register settings).Yields opened answer.registered registered ∧
      (settle settings remote settings.maxCycles).Yields registered (answer.cycles, answer.pulled)
        after ∧
      answer.objects = after.foreign.size := by
  simp only [assemble, Step.yields_bind, Step.yields_look, Step.yields_pure]
  constructor
  · rintro ⟨_, opened, ranOpen, count, registered, ranRegister, counts, _, ranSettle, _, _,
      ⟨rfl, rfl⟩, rfl, rfl⟩
    exact ⟨opened, registered, ranOpen, ranRegister, ranSettle, rfl⟩
  · rintro ⟨opened, registered, ranOpen, ranRegister, ranSettle, isSize⟩
    exact ⟨(), opened, ranOpen, _, registered, ranRegister, _, after, ranSettle, _, _, ⟨rfl, rfl⟩,
      by rw [← isSize], rfl⟩

end EoAssembly.Build
