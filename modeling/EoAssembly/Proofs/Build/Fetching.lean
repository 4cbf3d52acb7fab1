import EoAssembly.Proofs.Build.Complete
import EoAssembly.Proofs.Build.Discovering
import EoAssembly.Proofs.Build.Parsing

/-!
Contract: how far pulling brings a build.

Pulling goes on with the names that optimized documents refer to.  The store is
asked once for each of them that no file registers and that has no source, and
its source is parsed at once; names with a source are left as they are.

Owns what pulling makes of the marks of objects and of the journal.
-/

namespace EoAssembly.Build

open ObjectName (Placeable checkPlace)

variable {settings : Settings} {remote : Remote} {start before after : Workspace} {front : Front}
  {asked : List String} {name : String}

/-- An object whose source was pulled. -/
def Marks.pull (marks : Marks) : Marks := { marks with sourced := True }

/-- An object whose source was pulled and parsed. -/
def Marks.fetch (marks : Marks) : Marks := { marks with sourced := True, parsed := True }

theorem Marks.stands_pull (marks : Marks) (other : Shelf) :
    marks.pull.stands other ↔ marks.stands other ∨ (other = .pulled ∨ other = .logs) := by
  cases other <;> simp [Marks.stands, Marks.pull]

theorem Describes.pull {disk : Disk} {id : String} {marks : Marks} {old : Record}
    {version hash : Option String} (describes : Describes settings disk id marks old)
    (foreign : id ∉ registeredIds settings disk) :
    Describes settings disk id marks.pull
      { asPulled (pulledPlace settings.target id) version hash old with id := old.id } where
  ofProject file found := by
    rw [fileOf?_eq_none.2 foreign] at found
    exact absurd found (by simp)
  ofStore _ _ := ⟨rfl, rfl⟩
  unsourced waits := absurd trivial waits
  parsed := describes.parsed
  unparsed := describes.unparsed
  optimized := describes.optimized
  unoptimized := describes.unoptimized
  discovered := describes.discovered

theorem mark_fetch : (front.mark [name] Marks.pull).mark [name] Marks.parse =
    front.mark [name] Marks.fetch := by
  funext id
  rcases front.mark_single name Marks.fetch id with ⟨same, changed⟩ | ⟨different, kept⟩
  · have here : id ∈ [name] := List.mem_singleton.2 same
    rw [changed, Front.mark_of_mem here, Front.mark_of_mem here]
    rfl
  · have other : id ∉ [name] := by simpa using different
    rw [kept, Front.mark_of_not_mem other, Front.mark_of_not_mem other]

theorem mark_fetch_of_done (sourced : (front name).sourced) (parsed : (front name).parsed) :
    front.mark [name] Marks.fetch = front := by
  refine Front.mark_eq (fun twin member => ?_) fun _ _ => rfl
  rw [List.mem_singleton.1 member]
  ext <;> simp [Marks.fetch, sourced, parsed]

/-- Only what a build reads of a workspace matters. -/
theorem Progress.frame (progress : Progress settings remote start front asked before)
    (foreign : after.foreign = before.foreign) (disk : after.disk = before.disk)
    (journal : sourcesAsked after.journal = sourcesAsked before.journal) :
    Progress settings remote start front asked after := by
  refine ⟨?_, ?_, ?_, progress.needed, progress.placeable,
    progress.readable, progress.registered⟩
  · rw [foreign]
    exact progress.recorded
  · rw [disk]
    exact progress.filed
  · exact ⟨journal.trans progress.asked.journal, progress.asked.distinct, progress.asked.sourced⟩

/-- A name has a source in the project when a file registers it. -/
theorem Progress.isLocal_iff (progress : Progress settings remote start front asked before) :
    isLocal before.foreign name = true ↔ name ∈ registeredIds settings start.disk := by
  unfold isLocal
  rw [Option.any_eq_true]
  constructor
  · rintro ⟨record, found, holds⟩
    obtain ⟨some_, notPulled⟩ := Bool.and_eq_true_iff.1 holds
    have describes := progress.recorded.describes name record found
    have sourced := describes.source_iff.1 some_
    by_cases registered : name ∈ registeredIds settings start.disk
    · exact registered
    · rw [(describes.ofStore (fileOf?_eq_none.2 registered) sourced).2] at notPulled
      exact absurd notPulled (by simp)
  · intro registered
    have known := (progress.recorded.within name).1 (progress.registered name registered)
    obtain ⟨record, found⟩ := (progress.recorded.known name).2 known
    have describes := progress.recorded.describes name record found
    refine ⟨record, found, ?_⟩
    cases file : fileOf? settings start.disk name with
    | none => exact absurd registered (fileOf?_eq_none.1 file)
    | some local_ =>
      obtain ⟨source, notPulled⟩ := describes.ofProject local_ file
      rw [source, notPulled]
      rfl

/-- A source that was pulled is recorded. -/
theorem Progress.isRecorded (progress : Progress settings remote start front asked before)
    (sourced : (front name).sourced) (foreign : name ∉ registeredIds settings start.disk) :
    isRecorded before.foreign name (pulledPlace settings.target name) = true := by
  have known := (progress.recorded.within name).1 sourced
  obtain ⟨record, found⟩ := (progress.recorded.known name).2 known
  obtain ⟨source, pulled⟩ := (progress.recorded.describes name record found).ofStore
    (fileOf?_eq_none.2 foreign) sourced
  exact isRecorded_of_pulled found pulled source

theorem sourcesAsked_source (journal : List Request) (name : String) :
    sourcesAsked (journal ++ [.source name]) = sourcesAsked journal ++ [name] := by
  simp [sourcesAsked]

theorem sourcesAsked_table (journal : List Request) :
    sourcesAsked (journal ++ [.table]) = sourcesAsked journal := by
  simp [sourcesAsked]

/-- A source that is fetched stands at its place, with a log. -/
theorem Progress.fetchSource (scene : Scene settings remote start.disk)
    (progress : Progress settings remote start front asked before) (known : (front name).known)
    (placeable : Placeable name) (foreign : name ∉ registeredIds settings start.disk)
    (ran : (fetchSource remote name (pulledPlace settings.target name)
      (logPlace settings.protocols name)).Yields before () after) :
    after.foreign = before.foreign ∧
      sourcesAsked after.journal = sourcesAsked before.journal ++ [name] ∧
      Filed settings remote start.disk (Front.stands (front.mark [name] Marks.pull)) after.disk := by
  have needed := progress.needed name known
  obtain ⟨text, fetched, middle, ranFetch, wroteSource, wroteLog⟩ := yields_fetchSource.1 ran
  obtain ⟨disk, answered, resultFetch⟩ := Step.yields_fetch.1 ranFetch
  obtain ⟨first, written, resultSource⟩ := Step.yields_write.1 wroteSource
  obtain ⟨second, logged, resultLog⟩ := Step.yields_write.1 wroteLog
  rw [scene.store] at answered
  obtain ⟨isText, sameDisk⟩ := Prod.mk.inj answered
  rw [resultFetch, ← sameDisk] at written
  rw [resultSource] at logged
  have holds : Shelf.pulled.Holds settings remote start.disk name text := by
    change Build.sourceText settings remote start.disk name = .ok text
    unfold Build.sourceText
    rw [fileOf?_eq_none.2 foreign]
    exact isText
  have withSource : Filed settings remote start.disk
      (fun other twin => front.stands other twin ∨ (other = .pulled ∧ twin = name)) first :=
    progress.filed.write .pulled scene ⟨needed, foreign⟩ placeable holds (fun _ _ => Iff.rfl) written
  have withLog : Filed settings remote start.disk
      (Front.stands (front.mark [name] Marks.pull)) second := by
    refine withSource.write .logs scene ⟨needed, foreign⟩ placeable trivial (fun other twin => ?_)
      logged
    rw [Front.stands_mark Marks.stands_pull, or_and_right, ← or_assoc]
  rw [resultLog, resultSource, resultFetch]
  exact ⟨rfl, sourcesAsked_source _ _, withLog⟩

/-- A source that is recorded is parsed, when there is no document. -/
theorem Progress.recordPulled {hash : Option String} {between : Workspace}
    (scene : Scene settings remote start.disk)
    (progress : Progress settings remote start front asked before) (known : (front name).known)
    (unparsed : ¬(front name).parsed) (placeable : Placeable name)
    (foreign : name ∉ registeredIds settings start.disk) (unsourced : ¬(front name).sourced)
    (sameCatalog : between.foreign = before.foreign)
    (journal : sourcesAsked between.journal = sourcesAsked before.journal ++ [name])
    (filed : Filed settings remote start.disk (Front.stands (front.mark [name] Marks.pull))
      between.disk)
    (ran : (recordPulled settings remote name (pulledPlace settings.target name) hash).Yields
      between () after) :
    Progress settings remote start (front.mark [name] Marks.fetch) (asked ++ [name]) after := by
  have asks : Asked settings start (front.mark [name] Marks.pull) (asked ++ [name])
      between.journal := by
    have notAsked : name ∉ asked := fun member =>
      unsourced ((progress.asked.sourced name).1 member).1
    refine ⟨?_, ?_, fun id => ?_⟩
    · rw [journal, progress.asked.journal, List.append_assoc]
    · exact List.nodup_append.2 ⟨progress.asked.distinct, by simp, fun id member other isName =>
        fun same => notAsked (by rw [← List.mem_singleton.1 isName, ← same]; exact member)⟩
    · rw [List.mem_append, progress.asked.sourced, List.mem_singleton,
        Front.mark_gains Marks.pull Marks.sourced fun _ => trivial, List.mem_singleton,
        or_and_right]
      refine or_congr_right ⟨fun same => ⟨same, ?_⟩, And.left⟩
      rw [same]
      exact foreign
  obtain ⟨record, found⟩ := (progress.recorded.known name).2 known
  obtain ⟨_, added, changed, recorded, ranAdd, ranUpdate, rest⟩ := yields_recordPulled.1 ran
  have same : added = between := by
    rcases addForeign_catalog ranAdd with ⟨_, same⟩ | ⟨missing, _⟩
    · exact same
    · rw [sameCatalog, found] at missing
      exact absurd missing (by simp)
  rw [same] at ranUpdate
  have sourced := progress.update scene sameCatalog filed asks (fun known => known)
    (fun _ => trivial) (fun _ => placeable) (progress.readable name)
    (fun _ describes => describes.pull foreign) ranUpdate
  have noDocument : changed.xmir.isNone = true := by
    obtain ⟨old, foundOld, isChanged, _⟩ := updateForeign_catalog ranUpdate
    rw [sameCatalog, found] at foundOld
    have describes := progress.recorded.describes name record found
    rw [Option.some.inj foundOld] at describes
    rw [isChanged]
    exact Option.isNone_iff_eq_none.2 (describes.unparsed unparsed)
  rcases rest with ⟨_, place, parsed⟩ | ⟨wrong, _⟩
  · rw [← mark_fetch]
    refine sourced.parseObject scene ?_ parsed
    exact (Front.mark_gains Marks.pull Marks.sourced fun _ => trivial).2
      (Or.inr (List.mem_singleton_self name))
  · exact absurd noDocument wrong

/-- A source that is there is kept, and one that is missing is fetched. -/
theorem Progress.pullPinned {hash : Option String} {count : Nat}
    (scene : Scene settings remote start.disk)
    (progress : Progress settings remote start front asked before)
    (isKnown : (front name).known) (settled : (front name).sourced ↔ (front name).parsed)
    (foreign : name ∉ registeredIds settings start.disk) (placeable : Placeable name)
    (ran : (pullPinned settings remote name hash).Yields before count after) :
    ∃ more, Progress settings remote start (front.mark [name] Marks.fetch) more after ∧
      more.length = asked.length + count ∧
      ((front name).sourced → after.foreign = before.foreign) := by
  have needed := progress.needed name isKnown
  by_cases sourced : (front name).sourced
  · have there : before.disk.exists? (pulledPlace settings.target name) = true := by
      obtain ⟨text, stands, _⟩ := progress.filed.entry_file .pulled rfl ⟨needed, foreign⟩
        placeable sourced
      exact Disk.exists?_iff.2 ⟨_, stands⟩
    have keep : pullChoice before.disk settings.overwrite (pulledPlace settings.target name)
        (logPlace settings.protocols name) = .keep := by
      simp [pullChoice, scene.keeps, there]
    cases yields_pullPinned.1 ran with
    | left leave => exact absurd (keep.symm.trans leave) (by simp)
    | fetched fetch _ _ => exact absurd (keep.symm.trans fetch) (by simp)
    | recorded _ unknown _ =>
      rw [progress.isRecorded sourced foreign] at unknown
      exact absurd unknown (by simp)
    | kept _ _ =>
      rw [mark_fetch_of_done sourced (settled.1 sourced)]
      exact ⟨asked, progress, rfl, fun _ => rfl⟩
  · have missing : before.disk.exists? (pulledPlace settings.target name) = false :=
      progress.filed.not_exists? .pulled ⟨needed, foreign⟩ placeable sourced
    have unlogged : before.disk.exists? (logPlace settings.protocols name) = false :=
      progress.filed.not_exists? .logs ⟨needed, foreign⟩ placeable sourced
    have fetch : pullChoice before.disk settings.overwrite (pulledPlace settings.target name)
        (logPlace settings.protocols name) = .fetch := by
      simp [pullChoice, scene.keeps, missing, unlogged]
    cases yields_pullPinned.1 ran with
    | left leave => exact absurd (fetch.symm.trans leave) (by simp)
    | recorded keep _ _ => exact absurd (fetch.symm.trans keep) (by simp)
    | kept keep _ => exact absurd (fetch.symm.trans keep) (by simp)
    | fetched _ ranFetch ranRecord =>
      obtain ⟨catalog, asks, filed⟩ :=
        progress.fetchSource scene isKnown placeable foreign ranFetch
      have fetched := progress.recordPulled scene isKnown (fun parsed =>
        sourced (settled.2 parsed)) placeable foreign sourced catalog asks filed ranRecord
      exact ⟨_, fetched, List.length_append, fun already => absurd already sourced⟩

/-- Pulling a name goes on with its source and its document. -/
theorem Progress.pullName {known : Option HashTable} {result : Nat × Option HashTable}
    (scene : Scene settings remote start.disk)
    (progress : Progress settings remote start front asked before)
    (isKnown : (front name).known) (settled : (front name).sourced ↔ (front name).parsed)
    (ran : (pullName settings remote known name).Yields before result after) :
    ∃ more, Progress settings remote start (front.mark [name] Marks.fetch) more after ∧
      more.length = asked.length + result.1 ∧
      ((front name).sourced → after.foreign = before.foreign) := by
  obtain ⟨count, table⟩ := result
  rcases yields_pullName.1 ran with ⟨ofProject, same, rfl⟩ | ⟨sought, passes, hash, ready, ranPinned,
    ranPull⟩
  · obtain ⟨rfl, rfl⟩ := Prod.mk.inj same
    have sourced := progress.registered name (progress.isLocal_iff.1 ofProject)
    rw [mark_fetch_of_done sourced (settled.1 sourced)]
    exact ⟨asked, progress, rfl, fun _ => rfl⟩
  · have foreign : name ∉ registeredIds settings start.disk := fun registered =>
      absurd (progress.isLocal_iff.2 registered) (by simp [sought])
    have placeable := ObjectName.placeable_of_checkPlace passes
    obtain ⟨slot, journal, isReady, requests⟩ := pinned_frame ranPinned
    have progressReady : Progress settings remote start front asked ready := by
      refine progress.frame ?_ ?_ ?_
      · rw [isReady]
      · rw [isReady]
      · rw [isReady]
        rcases requests with same | more
        · rw [same]
        · rw [more]
          exact sourcesAsked_table _
    obtain ⟨more, pulling, grown, idle⟩ :=
      progressReady.pullPinned scene isKnown settled foreign placeable ranPull
    refine ⟨more, pulling, grown, fun sourced => ?_⟩
    rw [idle sourced, isReady]

theorem Progress.pullEach {known : Option HashTable} {names : List String} {count : Nat}
    (scene : Scene settings remote start.disk)
    (progress : Progress settings remote start front asked before)
    (ready : ∀ name ∈ names, (front name).known ∧ ((front name).sourced ↔ (front name).parsed))
    (ran : (pullEach settings remote known names).Yields before count after) :
    ∃ more, Progress settings remote start (front.mark names Marks.fetch) more after ∧
      more.length = asked.length + count ∧
      ((∀ name ∈ names, (front name).sourced) → after.foreign = before.foreign) := by
  induction names generalizing front asked before known count with
  | nil =>
    obtain ⟨rfl, rfl⟩ := Step.yields_pure.1 ran
    rw [Front.mark_nil]
    exact ⟨asked, progress, rfl, fun _ => rfl⟩
  | cons name rest inductionHypothesis =>
    obtain ⟨first, table, between, others, ranFirst, ranRest, rfl⟩ := yields_pullEach_cons.1 ran
    obtain ⟨isKnown, settled⟩ := ready name List.mem_cons_self
    obtain ⟨more, one, grown, idle⟩ := progress.pullName scene isKnown settled ranFirst
    have later : ∀ other ∈ rest, (front.mark [name] Marks.fetch other).known ∧
        ((front.mark [name] Marks.fetch other).sourced ↔
          (front.mark [name] Marks.fetch other).parsed) := by
      intro other member
      obtain ⟨knownOther, settledOther⟩ := ready other (List.mem_cons_of_mem name member)
      rw [Front.mark_keeps Marks.fetch Marks.known fun _ => Iff.rfl,
        Front.mark_gains Marks.fetch Marks.sourced fun _ => trivial,
        Front.mark_gains Marks.fetch Marks.parsed fun _ => trivial]
      exact ⟨knownOther, or_congr_left settledOther⟩
    obtain ⟨last, all, grownLast, idleRest⟩ := inductionHypothesis one later ranRest
    rw [Front.mark_cons Marks.fetch fun _ => rfl] at all
    refine ⟨last, all, ?_, fun sourced => ?_⟩
    · simp only at grown
      omega
    · have here := sourced name List.mem_cons_self
      rw [idleRest fun other member => ?_, idle here]
      exact (Front.mark_gains Marks.fetch Marks.sourced fun _ => trivial).2
        (Or.inl (sourced other (List.mem_cons_of_mem name member)))

/-- Optimized documents refer to the references of their objects. -/
theorem Progress.mem_referredNames
    (progress : Progress settings remote start front asked before)
    (sourced : ∀ id, (front id).optimized → (front id).sourced)
    (made : ∀ id, (front id).optimized → (front id).made) :
    name ∈ referredNames before.disk before.foreign ↔
      ∃ id, (front id).optimized ∧ name ∈ references settings remote start.disk id := by
  have ofOptimized : ∀ id, (front id).optimized → ∀ record : Record,
      record.optimized = some (optimizedPlace settings.target id) →
      namesOfRecord before.disk record = references settings remote start.disk id := by
    intro id optimized
    have known := (progress.recorded.within id).1 (sourced id optimized)
    intro record isOptimized
    obtain ⟨text, isText, same⟩ := namesIn_optimized progress.filed (progress.needed id known)
      (progress.placeable id (sourced id optimized)) (made id optimized)
    unfold namesOfRecord references
    rw [isOptimized, isText]
    cases found : namesOfText (optimizedPlace settings.target id) text with
    | error failure => simp only [same, found]
    | ok names => simp only [same, found]
  unfold referredNames
  rw [Ordered.mem_names, List.mem_flatMap]
  constructor
  · rintro ⟨record, member, among⟩
    have describes := progress.recorded.describes record.id record
      (Catalog.find?_of_mem progress.recorded.sorted member)
    by_cases optimized : (front record.id).optimized
    · rw [ofOptimized record.id optimized record (describes.optimized optimized)] at among
      exact ⟨record.id, optimized, among⟩
    · unfold namesOfRecord at among
      rw [describes.unoptimized optimized] at among
      exact absurd among (by simp)
  · rintro ⟨id, optimized, among⟩
    have known := (progress.recorded.within id).1 (sourced id optimized)
    obtain ⟨record, found⟩ := (progress.recorded.known id).2 known
    have describes := progress.recorded.describes id record found
    refine ⟨record, Catalog.mem_of_find? found, ?_⟩
    rw [ofOptimized id optimized record (describes.optimized optimized)]
    exact among

/-- Pulling goes on with every name that an optimized document refers to. -/
theorem Progress.pullAll {count : Nat} (scene : Scene settings remote start.disk)
    (progress : Progress settings remote start front asked before)
    (settled : ∀ id, (front id).sourced ↔ (front id).parsed)
    (sourced : ∀ id, (front id).optimized → (front id).sourced)
    (made : ∀ id, (front id).optimized → (front id).made)
    (isKnown : ∀ id, (front id).optimized → ∀ name ∈ references settings remote start.disk id,
      (front name).known)
    (ran : (pullAll settings remote).Yields before count after) :
    ∃ more, Progress settings remote start
      (fun name => { front name with
        sourced := (front name).sourced ∨ ∃ id, (front id).optimized ∧
          name ∈ references settings remote start.disk id
        parsed := (front name).parsed ∨ ∃ id, (front id).optimized ∧
          name ∈ references settings remote start.disk id }) more after ∧
      more.length = asked.length + count ∧
      ((∀ id, (front id).optimized → ∀ name ∈ references settings remote start.disk id,
        (front name).sourced) → after.foreign = before.foreign) := by
  have ranEach := yields_pullAll.1 ran
  have mem_names : ∀ name, name ∈ referredNames before.disk before.foreign ↔
      ∃ id, (front id).optimized ∧ name ∈ references settings remote start.disk id :=
    fun _ => progress.mem_referredNames sourced made
  have ready : ∀ name ∈ referredNames before.disk before.foreign,
      (front name).known ∧ ((front name).sourced ↔ (front name).parsed) := by
    intro name member
    obtain ⟨id, optimized, among⟩ := (mem_names name).1 member
    exact ⟨isKnown id optimized name among, settled name⟩
  obtain ⟨more, all, grown, idle⟩ := progress.pullEach scene ready ranEach
  refine ⟨more, ?_, grown, fun already => idle fun name member => ?_⟩
  · rw [Front.mark_eq (fun name member => ?_) (fun name free => ?_)] at all
    · exact all
    · have referred := (mem_names name).1 member
      ext <;> simp [Marks.fetch, referred]
    · have unreferred := fun there => free ((mem_names name).2 there)
      ext
      · rfl
      · exact (or_iff_left unreferred).symm
      · exact (or_iff_left unreferred).symm
      · rfl
      · rfl
      · rfl
  · obtain ⟨id, optimized, among⟩ := (mem_names name).1 member
    exact already id optimized name among

end EoAssembly.Build
