import EoAssembly.Proofs.Build.Asking
import EoAssembly.Proofs.Build.Confined

/-!
Contract: versioned names are pinned before anything is touched.

Whatever becomes of a pull, it changes the records of the names it seeks only, and each record it
changes is pinned as the table in the slot says.  The text of the table is asked for once at most,
only for a name with a version, and never again after it was given, however many pulls share the
slot.  A version that the table refuses ends a pull before its name is fetched, recorded or logged.

Owns `Pull`, `Sharing`, `Sought`, `FrontArea`, and this law.
-/

namespace EoAssembly.Build

open ObjectName (checkPlace)

variable {settings : Settings} {remote : Remote} {name : String} {source log path : Path}
  {hash : Option String} {known : Option HashTable} {before between after start present : Workspace}
  {asked : Request → Prop} {names front : List String}

/-! ## What one name changes -/

/-- Only one record changed, nothing happened to the slot of the table, and only some things were
asked of the outside. -/
structure Minds (asked : Request → Prop) (name : String) (before present : Workspace) : Prop where
  slot : present.slot = before.slot
  journal : ∃ gained, present.journal = before.journal ++ gained ∧ ∀ request ∈ gained, asked request
  others : ∀ id, id ≠ name → present.foreign.find? id = before.foreign.find? id

namespace Minds

theorem refl : Minds asked name before before :=
  ⟨rfl, ⟨[], by simp, by simp⟩, fun _ _ => rfl⟩

theorem trans (first : Minds asked name before between) (second : Minds asked name between after) :
    Minds asked name before after := by
  obtain ⟨early, isEarly, fineEarly⟩ := first.journal
  obtain ⟨late, isLate, fineLate⟩ := second.journal
  refine ⟨second.slot.trans first.slot, ⟨early ++ late, ?_, fun request member => ?_⟩,
    fun id other => (second.others id other).trans (first.others id other)⟩
  · rw [isLate, isEarly, List.append_assoc]
  · exact (List.mem_append.1 member).elim (fineEarly request) (fineLate request)

theorem mono {wider : Request → Prop} (minds : Minds asked name before after)
    (within : ∀ request, asked request → wider request) : Minds wider name before after := by
  obtain ⟨gained, isGained, fine⟩ := minds.journal
  exact ⟨minds.slot, ⟨gained, isGained, fun request member => within request (fine request member)⟩,
    minds.others⟩

theorem onDisk {α : Type} (action : Disk → Except Failure α × Disk) :
    (Step.onDisk action).KeepsThroughout (Minds asked name start) := by
  intro before outcome after here ran
  obtain ⟨disk, _, rfl⟩ := Step.perform_onDisk ran
  exact here.trans ⟨rfl, ⟨[], by simp, by simp⟩, fun _ _ => rfl⟩

theorem fetch (fine : asked (.source name)) :
    (Step.fetch remote name).KeepsThroughout (Minds asked name start) := by
  intro before outcome after here ran
  rw [← (Prod.mk.inj ran).2]
  exact here.trans ⟨rfl, ⟨[.source name], rfl, by simpa using fine⟩, fun _ _ => rfl⟩

theorem parse (fine : asked (.document name)) (text : String) :
    (Step.parse remote name text).KeepsThroughout (Minds asked name start) := by
  intro before outcome after here ran
  rw [← (Prod.mk.inj ran).2]
  exact here.trans ⟨rfl, ⟨[.document name], rfl, by simpa using fine⟩, fun _ _ => rfl⟩

theorem add : (Step.addForeign name).KeepsThroughout (Minds asked name start) := by
  intro before outcome after here ran
  obtain ⟨catalog, disk, added, rfl⟩ := Step.perform_addForeign ran
  refine here.trans ⟨rfl, ⟨[], by simp, by simp⟩, fun id other => ?_⟩
  rcases Catalog.add_any added with ⟨_, _, _, rfl, _⟩ | ⟨_, rfl, _⟩
  · rfl
  · exact Catalog.find?_put_other before.foreign (Ne.symm other)

theorem update (change : Record → Record) :
    (Step.updateForeign name change).KeepsThroughout (Minds asked name start) := by
  intro before outcome after here ran
  obtain ⟨catalog, disk, updated, rfl⟩ := Step.perform_updateForeign ran
  refine here.trans ⟨rfl, ⟨[], by simp, by simp⟩, fun id other => ?_⟩
  cases found : before.foreign.find? name with
  | none =>
    rw [Catalog.update_missing found] at updated
    rw [← (Prod.mk.inj (Prod.mk.inj updated).2).1]
  | some record =>
    obtain ⟨rfl, _⟩ := Catalog.update_any found updated
    exact Catalog.find?_put_other before.foreign (Ne.symm other)

theorem recording (fine : asked (.document name)) :
    Recording settings remote name source hash (Minds asked name start) where
  add := add
  mark := update _
  parse := parse fine
  save _ := onDisk _
  made := update _

theorem fetchSource (fine : asked (.source name)) :
    (Build.fetchSource remote name source log).KeepsThroughout (Minds asked name start) := by
  unfold Build.fetchSource
  refine .bind (fetch fine) fun text => .bind (onDisk _) fun _ => ?_
  exact .bind .look fun instant => onDisk _

end Minds

/-! ## What becomes of its record -/

/-- The record of a name has the version of the name, and a hash. -/
def Stamped (catalog : Catalog) (name : String) (hash : Option String) : Prop :=
  ∃ record, catalog.find? name = some record ∧ record.version = (ObjectName.split name).2 ∧
    record.hash = hash

/-- A change that keeps the version and the hash of a record that has them. -/
theorem stamped_update {change : Record → Record}
    (keeps : ∀ record, record.version = (ObjectName.split name).2 → record.hash = hash →
      (change record).version = (ObjectName.split name).2 ∧ (change record).hash = hash) :
    (Step.updateForeign name change).KeepsThroughout fun present => Stamped present.foreign name hash := by
  rintro before outcome after ⟨record, found, version, isHash⟩ ran
  obtain ⟨catalog, disk, updated, rfl⟩ := Step.perform_updateForeign ran
  obtain ⟨rfl, _⟩ := Catalog.update_any found updated
  obtain ⟨sameVersion, sameHash⟩ := keeps record version isHash
  exact ⟨{ change record with id := name }, Catalog.find?_put_same _ _, sameVersion, sameHash⟩

/-- What records a source keeps the version and the hash once they are there. -/
theorem stamped_recording : Recording settings remote name source hash
    fun present => Stamped present.foreign name hash where
  add := by
    rintro before outcome after ⟨record, found, rest⟩ ran
    obtain ⟨catalog, disk, added, rfl⟩ := Step.perform_addForeign ran
    rcases Catalog.add_any added with ⟨_, _, _, rfl, _⟩ | ⟨missing, _⟩
    · exact ⟨record, found, rest⟩
    · exact absurd (missing.symm.trans found) (by simp)
  mark := stamped_update fun _ _ _ => ⟨rfl, rfl⟩
  parse text := by
    intro before outcome after here ran
    rw [← (Prod.mk.inj ran).2]
    exact here
  save document := by
    intro before outcome after here ran
    obtain ⟨disk, _, rfl⟩ := Step.perform_onDisk ran
    exact here
  made := stamped_update fun _ version isHash => ⟨version, isHash⟩

/-- Recording a source marks its record, unless the record could not even be created. -/
theorem recordPulled_any {outcome : Except Failure Unit}
    (ran : (recordPulled settings remote name source hash).perform before = (outcome, after)) :
    Stamped after.foreign name hash ∨
      before.foreign.find? name = none ∧ after.foreign.find? name = some (.ofId name) ∧
        ∃ failure, outcome = .error failure := by
  unfold recordPulled at ran
  rcases Step.ends_bind ran with ⟨failure, adding, rfl⟩ | ⟨created, ready, adding, ranNext⟩
  · obtain ⟨catalog, disk, added, rfl⟩ := Step.perform_addForeign adding
    rcases Catalog.add_any added with ⟨_, _, wrong, _⟩ | ⟨missing, rfl, _⟩
    · exact absurd wrong (by simp)
    · exact Or.inr ⟨missing, Catalog.find?_put_same _ (.ofId name), failure, rfl⟩
  · refine Or.inl ?_
    obtain ⟨catalog, disk, added, rfl⟩ := Step.perform_addForeign adding
    obtain ⟨record, found⟩ : ∃ record, catalog.find? name = some record := by
      rcases Catalog.add_any added with ⟨record, found, _, rfl, _⟩ | ⟨_, rfl, _⟩
      · exact ⟨record, found⟩
      · exact ⟨_, Catalog.find?_put_same _ (.ofId name)⟩
    have marks : ∀ {answer marked},
        (Step.updateForeign name (asPulled source (ObjectName.split name).2 hash)).perform
          { before with foreign := catalog, disk := disk } = (answer, marked) →
        Stamped marked.foreign name hash := by
      intro answer marked marking
      obtain ⟨next, disk, updated, rfl⟩ := Step.perform_updateForeign marking
      obtain ⟨rfl, _⟩ := Catalog.update_any found updated
      exact ⟨_, Catalog.find?_put_same _ _, rfl, rfl⟩
    rcases Step.ends_bind ranNext with ⟨_, marking, _⟩ | ⟨record, marked, marking, ranRest⟩
    · exact marks marking
    · have recording : Recording settings remote name source hash
          fun present => Stamped present.foreign name hash := stamped_recording
      have rest : (if record.xmir.isNone then
          (do let _ ← parseObject settings remote name) else pure () : Step Unit).KeepsThroughout
          fun present => Stamped present.foreign name hash :=
        .ite (.bind recording.parseObject fun _ => .pure) .pure
      exact rest marked outcome after (marks marking) ranRest

/-! ## Seeing to names, wherever it stops -/

/-- What became of the record of a name that is pinned: nothing, or it was marked, or it could not
even be created, which ended the pull. -/
def Becomes {α : Type} (name : String) (hash : Option String) (before after : Catalog)
    (outcome : Except Failure α) : Prop :=
  after.find? name = before.find? name ∨ Stamped after name hash ∨
    before.find? name = none ∧ after.find? name = some (.ofId name) ∧ ∃ failure, outcome = .error failure

theorem fetchSource_foreign (start : Workspace) : (fetchSource remote name source log).KeepsThroughout
    fun present => present.foreign = start.foreign := by
  have write : ∀ path text, (Step.write path text).KeepsThroughout
      fun present => present.foreign = start.foreign := by
    intro path text before outcome after here ran
    obtain ⟨disk, _, rfl⟩ := Step.perform_onDisk ran
    exact here
  unfold fetchSource
  refine .bind ?_ fun text => .bind (write source text) fun _ => .bind .look fun instant => write log _
  intro before outcome after here ran
  rw [← (Prod.mk.inj ran).2]
  exact here

/-- Recording a source that is there minds the record of its name, and asks for a document only. -/
theorem recordPulled_minds (start : Workspace) : (recordPulled settings remote name source hash).KeepsThroughout
    (Minds (· = .document name) name start) := by
  have recording : Recording settings remote name source hash
      (Minds (· = .document name) name start) := Minds.recording rfl
  exact recording.recordPulled

/-- What seeing to a pinned name comes to: nothing, a source that could not be fetched, or the
record of a source, fetched before or not. -/
theorem pullPinned_ends {outcome : Except Failure Nat}
    (ran : (pullPinned settings remote name hash).perform before = (outcome, after)) :
    (outcome = .ok 0 ∧ after = before) ∨
      (∃ failure, (fetchSource remote name (pulledPlace settings.target name)
          (logPlace settings.protocols name)).perform before = (.error failure, after) ∧
        outcome = .error failure) ∨
      ∃ count ready answer, (count = 0 ∧ ready = before ∨ count = 1 ∧ (fetchSource remote name
          (pulledPlace settings.target name) (logPlace settings.protocols name)).Yields before () ready) ∧
        (recordPulled settings remote name (pulledPlace settings.target name) hash).perform ready =
          (answer, after) ∧ outcome = answer.map fun _ => count := by
  unfold pullPinned at ran
  rw [Step.perform_look_bind] at ran
  simp only at ran
  split at ran
  · obtain ⟨rfl, rfl⟩ := Prod.mk.inj ran
    exact Or.inl ⟨rfl, rfl⟩
  · refine Or.inr ?_
    rcases Step.ends_bind ran with failed | ⟨_, ready, fetched, ranRest⟩
    · exact Or.inl failed
    · obtain ⟨answer, recorded, same⟩ := Step.ends_map ranRest
      exact Or.inr ⟨1, ready, answer, Or.inr ⟨rfl, fetched⟩, recorded, same⟩
  · rw [Step.perform_look_bind] at ran
    split at ran
    · obtain ⟨answer, recorded, same⟩ := Step.ends_map ran
      exact Or.inr (Or.inr ⟨0, before, answer, Or.inl ⟨rfl, rfl⟩, recorded, same⟩)
    · obtain ⟨rfl, rfl⟩ := Prod.mk.inj ran
      exact Or.inl ⟨rfl, rfl⟩

/-- Seeing to a pinned name minds its own record; when its source was fetched and the pull goes on,
the record was marked. -/
theorem pullPinned_any {outcome : Except Failure Nat}
    (ran : (pullPinned settings remote name hash).perform before = (outcome, after)) :
    Minds (fun request => request = .source name ∨ request = .document name) name before after ∧
      Becomes name hash before.foreign after.foreign outcome ∧
      ∀ count, outcome = .ok count →
        Minds (· = .document name) name before after ∨ Stamped after.foreign name hash := by
  let both : Request → Prop := fun request => request = .source name ∨ request = .document name
  have fetches : ∀ {answer fetched}, (fetchSource remote name (pulledPlace settings.target name)
      (logPlace settings.protocols name)).perform before = (answer, fetched) →
      Minds both name before fetched ∧ fetched.foreign = before.foreign := fun fetching =>
    ⟨Minds.fetchSource (Or.inl rfl) before _ _ .refl fetching,
      fetchSource_foreign before before _ _ rfl fetching⟩
  rcases pullPinned_ends ran with
    ⟨rfl, rfl⟩ | ⟨failure, fetching, rfl⟩ | ⟨count, ready, answer, reached, recording, rfl⟩
  · exact ⟨.refl, Or.inl rfl, fun _ _ => Or.inl .refl⟩
  · obtain ⟨minds, same⟩ := fetches fetching
    exact ⟨minds, Or.inl (congrArg (Catalog.find? · name) same), by simp⟩
  · have early : Minds both name before ready ∧ ready.foreign = before.foreign := by
      rcases reached with ⟨_, rfl⟩ | ⟨_, fetched⟩
      · exact ⟨.refl, rfl⟩
      · exact fetches fetched
    have late : Minds both name ready after :=
      (recordPulled_minds ready ready answer after .refl recording).mono fun _ => Or.inr
    have marked := recordPulled_any recording
    rw [early.2] at marked
    refine ⟨early.1.trans late, Or.inr (marked.imp_right ?_), fun number isOk => ?_⟩
    · rintro ⟨missing, blank, failure, rfl⟩
      exact ⟨missing, blank, failure, rfl⟩
    · refine Or.inr (marked.resolve_right ?_)
      rintro ⟨_, _, failure, rfl⟩
      exact absurd isOk (by simp [Except.map])

/-- The record of a name is pinned as the table in the slot says. -/
def Pinned (present : Workspace) (name : String) : Prop :=
  ∃ hash, PinsTo present.slot name hash ∧ Stamped present.foreign name hash

/-- What a pull of names leaves, wherever it stops: what it asked for, and which records it changed. -/
structure Attends {α : Type} (remote : Remote) (names : List String) (before after : Workspace)
    (gained : List Request) (outcome : Except Failure α) : Prop where
  journal : after.journal = before.journal ++ gained
  requests : ∀ request ∈ gained, ∃ name ∈ names, isLocal before.foreign name = false ∧
    (request = .table ∧ (ObjectName.split name).2 ≠ none ∨ request = .source name ∨
      request = .document name)
  asks : Asks remote before.slot after.slot gained outcome
  others : ∀ id, id ∉ names → after.foreign.find? id = before.foreign.find? id
  records : ∀ id, after.foreign.find? id = before.foreign.find? id ∨
    isLocal before.foreign id = false ∧ (Pinned after id ∨ before.foreign.find? id = none ∧
      after.foreign.find? id = some (.ofId id) ∧ ∃ failure, outcome = .error failure)
  fetched : ∀ value, outcome = .ok value → ∀ name, .source name ∈ gained → Pinned after name

namespace Attends

variable {α β : Type} {outcome : Except Failure α} {last : Except Failure β}
  {gained more : List Request}

/-- Nothing happened. -/
theorem refl : Attends remote names before before [] outcome :=
  ⟨by simp, by simp, .unasked (by simp) rfl, fun _ _ => rfl, fun _ => Or.inl rfl, by simp⟩

/-- What a run leaves is the same for one that fails alike. -/
theorem become (attends : Attends remote names before after gained outcome)
    (same : ∀ failure, outcome = .error failure ↔ last = .error failure) :
    Attends remote names before after gained last := by
  refine ⟨attends.journal, attends.requests, attends.asks.become fun failure => (same failure).1,
    attends.others, fun id => ?_, fun value isOk => ?_⟩
  · refine (attends.records id).imp_right (And.imp_right (Or.imp_right ?_))
    exact fun ⟨missing, blank, failure, ended⟩ => ⟨missing, blank, failure, (same failure).1 ended⟩
  · cases answer : outcome with
    | ok value => exact attends.fetched value answer
    | error failure => exact absurd (((same failure).1 answer).symm.trans isOk) (by simp)

theorem map (attends : Attends remote names before after gained outcome) (put : α → β) :
    Attends remote names before after gained (outcome.map put) :=
  attends.become fun failure => by cases outcome <;> simp [Except.map]

theorem mono {wider : List String} (attends : Attends remote names before after gained outcome)
    (within : ∀ name ∈ names, name ∈ wider) : Attends remote wider before after gained outcome :=
  ⟨attends.journal, fun request member =>
    have ⟨name, among, rest⟩ := attends.requests request member
    ⟨name, within name among, rest⟩, attends.asks,
    fun id off => attends.others id fun among => off (within id among), attends.records,
    attends.fetched⟩

/-- Requests for the table alone, which leave the records alone, and then others. -/
theorem behind {value : α} (tables : ∀ request ∈ gained, request = .table)
    (same : between.foreign = before.foreign)
    (first : Attends remote names before between gained (.ok value : Except Failure α))
    (later : Attends remote names between after more last) :
    Attends remote names before after (gained ++ more) last := by
  have requests := later.requests
  have others := later.others
  have records := later.records
  rw [same] at requests others records
  refine ⟨?_, fun request member => ?_, first.asks.trans later.asks, others, records,
    fun answer isOk name member => ?_⟩
  · rw [later.journal, first.journal, List.append_assoc]
  · exact (List.mem_append.1 member).elim (first.requests request) (requests request)
  · rcases List.mem_append.1 member with early | late
    · exact absurd (tables _ early) (by simp)
    · exact later.fetched answer isOk name late

/-- One name, and then names that it is none of. -/
theorem cons {value : α} {rest : List String} (fresh : name ∉ rest)
    (first : Attends remote [name] before between gained (.ok value : Except Failure α))
    (later : Attends remote rest between after more last) :
    Attends remote (name :: rest) before after (gained ++ more) last := by
  have kept : ∀ {id}, id ≠ name → between.foreign.find? id = before.foreign.find? id :=
    fun other => first.others _ (by simpa using other)
  have localKept : ∀ {id}, id ≠ name → isLocal between.foreign id = isLocal before.foreign id :=
    fun other => isLocal_congr (kept other)
  have pinnedKept : ∀ {id}, id ∉ rest → Pinned between id → Pinned after id := by
    rintro id off ⟨hash, pins, record, found, isStamped⟩
    exact ⟨hash, pins.later fun text filled => later.asks.keeps filled, record,
      (later.others id off).trans found, isStamped⟩
  have own : ∀ request ∈ gained, isLocal before.foreign name = false ∧
      (request = .table ∧ (ObjectName.split name).2 ≠ none ∨ request = .source name ∨
        request = .document name) := by
    intro request member
    obtain ⟨other, among, rest⟩ := first.requests request member
    rw [List.mem_singleton.1 among] at rest
    exact rest
  refine ⟨?_, fun request member => ?_, first.asks.trans later.asks, fun id off => ?_, fun id => ?_,
    fun answer isOk id member => ?_⟩
  · rw [later.journal, first.journal, List.append_assoc]
  · rcases List.mem_append.1 member with early | late
    · exact ⟨name, List.mem_cons_self, own request early⟩
    · obtain ⟨other, among, sought, kind⟩ := later.requests request late
      have different : other ≠ name := fun same => fresh (same ▸ among)
      exact ⟨other, List.mem_cons_of_mem name among, localKept different ▸ sought, kind⟩
  · rw [List.mem_cons, not_or] at off
    exact (later.others id off.2).trans (kept off.1)
  · by_cases isName : id = name
    · subst isName
      rw [later.others id fresh]
      refine (first.records id).imp_right (And.imp_right ?_)
      rintro (pinned | ⟨_, _, _, wrong⟩)
      · exact Or.inl (pinnedKept fresh pinned)
      · exact absurd wrong (by simp)
    · rw [← kept isName, ← localKept isName]
      exact later.records id
  · rcases List.mem_append.1 member with early | late
    · have isName : id = name := by
        obtain ⟨_, ⟨wrong, _⟩ | same | wrong⟩ := own _ early
        · exact absurd wrong (by simp)
        · exact Request.source.inj same
        · exact absurd wrong (by simp)
      subst isName
      exact pinnedKept fresh (first.fetched value rfl id early)
    · exact later.fetched answer isOk id late

end Attends

/-- How pulling one name ends: the name is left, has no place, can't be pinned, or is seen to. -/
inductive NameEnds (settings : Settings) (remote : Remote) (known : Option HashTable) (name : String)
    (before : Workspace) : Except Failure (Nat × Option HashTable) → Workspace → Prop
  | left : isLocal before.foreign name = true →
      NameEnds settings remote known name before (.ok (0, known)) before
  | unplaced {failure : Failure} : isLocal before.foreign name = false →
      checkPlace name = .error failure →
      NameEnds settings remote known name before (.error failure) before
  | unpinned {failure : Failure} {after : Workspace} : isLocal before.foreign name = false →
      checkPlace name = .ok () → (pinned remote known name).perform before = (.error failure, after) →
      NameEnds settings remote known name before (.error failure) after
  | seen {hash : Option String} {table : Option HashTable} {ready after : Workspace}
      {answer : Except Failure Nat} : isLocal before.foreign name = false → checkPlace name = .ok () →
      (pinned remote known name).Yields before (hash, table) ready →
      (pullPinned settings remote name hash).perform ready = (answer, after) →
      NameEnds settings remote known name before (answer.map (·, table)) after

theorem pullName_ends {outcome : Except Failure (Nat × Option HashTable)}
    (ran : (pullName settings remote known name).perform before = (outcome, after)) :
    NameEnds settings remote known name before outcome after := by
  unfold pullName at ran
  rw [Step.perform_look_bind] at ran
  cases sought : isLocal before.foreign name with
  | true =>
    rw [sought] at ran
    obtain ⟨rfl, rfl⟩ := Prod.mk.inj ran
    exact .left sought
  | false =>
    rw [sought] at ran
    simp only [Bool.false_eq_true, if_false] at ran
    rcases Step.ends_bind ran with ⟨failure, failed, rfl⟩ | ⟨_, between, passed, ranPinned⟩
    · obtain ⟨checked, rfl⟩ := Prod.mk.inj failed
      exact .unplaced sought checked
    · obtain ⟨checked, rfl⟩ := Step.yields_ofOutcome.1 passed
      rcases Step.ends_bind ranPinned with ⟨failure, failed, rfl⟩ | ⟨⟨hash, table⟩, ready, pins, seeing⟩
      · exact .unpinned sought checked failed
      · obtain ⟨answer, seen, rfl⟩ := Step.ends_map seeing
        exact .seen sought checked pins seen

/-- Pinning a name that is sought asks for the table at most. -/
theorem attends_pinned (knows : Knows known before.slot) (sought : isLocal before.foreign name = false)
    {answer : Except Failure (Option String × Option HashTable)}
    (ran : (pinned remote known name).perform before = (answer, after)) :
    ∃ gained, Attends remote [name] before after gained answer ∧
      (∀ request ∈ gained, request = .table) ∧ after.foreign = before.foreign ∧
      ∀ hash table, answer = .ok (hash, table) → PinsTo after.slot name hash ∧ Knows table after.slot := by
  obtain ⟨gained, isAfter, tables, plain, asks, answers⟩ := pinned_any knows ran
  have same : after.foreign = before.foreign := by rw [isAfter]
  refine ⟨gained, ⟨?_, fun request member => ?_, asks, fun id _ => ?_, fun id => Or.inl ?_,
    fun value _ other member => ?_⟩, tables, same, answers⟩
  · rw [isAfter]
  · have versioned : (ObjectName.split name).2 ≠ none := fun none =>
      List.ne_nil_of_mem member (plain none)
    exact ⟨name, List.mem_singleton_self name, sought, Or.inl ⟨tables request member, versioned⟩⟩
  · rw [same]
  · rw [same]
  · exact absurd (tables _ member) (by simp)

/-- Seeing to a pinned name changes and asks for what is its own. -/
theorem attends_seen (sought : isLocal before.foreign name = false) (pins : PinsTo before.slot name hash)
    {answer : Except Failure Nat}
    (ran : (pullPinned settings remote name hash).perform before = (answer, after)) :
    ∃ gained, Attends remote [name] before after gained answer ∧ after.slot = before.slot := by
  obtain ⟨minds, becomes, fetched⟩ := pullPinned_any ran
  obtain ⟨gained, isGained, kinds⟩ := minds.journal
  have noTable : .table ∉ gained := fun member => absurd (kinds _ member) (by simp)
  rw [← minds.slot] at pins
  refine ⟨gained, ⟨isGained, fun request member => ?_, .unasked noTable minds.slot,
    fun id off => minds.others id (by simpa using off), fun id => ?_,
    fun count isOk other member => ?_⟩, minds.slot⟩
  · exact ⟨name, List.mem_singleton_self name, sought, Or.inr (kinds request member)⟩
  · by_cases isName : id = name
    · subst isName
      exact becomes.imp_right fun rest => ⟨sought, rest.imp_left fun stamped => ⟨hash, pins, stamped⟩⟩
    · exact Or.inl (minds.others id isName)
  · have isName : other = name := by
      rcases kinds _ member with isSource | wrong
      · exact Request.source.inj isSource
      · exact absurd wrong (by simp)
    rcases fetched count isOk with quiet | stamped
    · -- nothing but a document was asked for, so no source was
      obtain ⟨asked, isAsked, documents⟩ := quiet.journal
      have same : asked = gained := List.append_cancel_left (isAsked.symm.trans isGained)
      exact absurd (documents _ (same ▸ member)) (by simp)
    · exact isName ▸ ⟨hash, pins, stamped⟩

/-- Pulling one name pins its record before it touches it. -/
theorem pullName_any (knows : Knows known before.slot)
    {outcome : Except Failure (Nat × Option HashTable)}
    (ran : (pullName settings remote known name).perform before = (outcome, after)) :
    ∃ gained, Attends remote [name] before after gained outcome ∧
      ∀ count table, outcome = .ok (count, table) → Knows table after.slot := by
  cases pullName_ends ran with
  | left _ =>
    refine ⟨[], .refl, fun count table same => ?_⟩
    rw [← (Prod.mk.inj (Except.ok.inj same)).2]
    exact knows
  | unplaced _ _ => exact ⟨[], .refl, by simp⟩
  | unpinned sought _ failed =>
    obtain ⟨gained, attends, _⟩ := attends_pinned knows sought failed
    exact ⟨gained, attends.become (by simp), by simp⟩
  | @seen hash table ready _ answer sought _ pinning seeing =>
    obtain ⟨early, first, tables, same, answers⟩ := attends_pinned knows sought pinning
    obtain ⟨pins, knowsReady⟩ := answers hash table rfl
    obtain ⟨late, later, sameSlot⟩ := attends_seen (same ▸ sought) pins seeing
    refine ⟨early ++ late, (first.behind tables same later).map _, fun count other isOk => ?_⟩
    cases answer with
    | error failure => exact absurd isOk (by simp [Except.map])
    | ok _ =>
      rw [← (Prod.mk.inj (Except.ok.inj isOk)).2, sameSlot]
      exact knowsReady

/-- Pulling names, one after the other. -/
theorem pullWith_any (distinct : names.Nodup) (knows : Knows known before.slot)
    {outcome : Except Failure (Nat × Option HashTable)}
    (ran : (pullWith settings remote known names).perform before = (outcome, after)) :
    ∃ gained, Attends remote names before after gained outcome ∧
      ∀ count table, outcome = .ok (count, table) → Knows table after.slot := by
  induction names generalizing known before outcome after with
  | nil =>
    obtain ⟨rfl, rfl⟩ := Prod.mk.inj ran
    refine ⟨[], .refl, fun count table same => ?_⟩
    rw [← (Prod.mk.inj (Except.ok.inj same)).2]
    exact knows
  | cons name rest inductionHypothesis =>
    obtain ⟨fresh, others⟩ := List.nodup_cons.1 distinct
    unfold pullWith at ran
    rcases Step.ends_bind ran with ⟨failure, failed, rfl⟩ | ⟨⟨count, table⟩, between, first, ranRest⟩
    · obtain ⟨early, attends, _⟩ := pullName_any knows failed
      exact ⟨early, attends.mono (by simp), by simp⟩
    · obtain ⟨early, attends, knowsFirst⟩ := pullName_any knows first
      obtain ⟨answer, later, rfl⟩ := Step.ends_map ranRest
      obtain ⟨late, attendsRest, knowsRest⟩ :=
        inductionHypothesis others (knowsFirst count table rfl) later
      refine ⟨early ++ late, (Attends.cons fresh attends attendsRest).map _, fun sum last isOk => ?_⟩
      cases answer with
      | error failure => exact absurd isOk (by simp [Except.map])
      | ok pair =>
        rw [← (Prod.mk.inj (Except.ok.inj isOk)).2]
        exact knowsRest pair.1 pair.2 rfl

/-! ## The files of names -/

/-- Where a pull may write for names: at the places of those it seeks, at the catalog file and its
sibling, and what the store keeps for itself. -/
inductive FrontArea (settings : Settings) (catalog : Catalog) (own : Location → Prop)
    (current : Location) (names : List String) (location : Location) : Prop where
  | source (name : String) (among : name ∈ names) (sought : isLocal catalog name = false)
    (same : location = (pulledPlace settings.target name).goal current)
  | document (name : String) (among : name ∈ names) (sought : isLocal catalog name = false)
    (same : location = (parsedPlace settings.target name).goal current)
  | log (name : String) (among : name ∈ names) (sought : isLocal catalog name = false)
    (same : location = (logPlace settings.protocols name).goal current)
  | catalog (same : location = catalog.path.goal current)
  | sibling (same : location = (catalog.path.extended ".tmp").goal current)
  | store (owned : own location)

/-- What a pull of names does to the disk, wherever it stops. -/
theorem confined_pullWith {own : Location → Prop} {all : List String} (store : remote.KeepsTo own)
    (within : ∀ name ∈ names, name ∈ all) (distinct : names.Nodup) (knows : Knows known before.slot)
    (sought : ∀ name ∈ names, isLocal before.foreign name = isLocal start.foreign name)
    (here : ConfinedFrom (FrontArea settings start.foreign own start.disk.current all)
      start.foreign.path start.disk before)
    {outcome : Except Failure (Nat × Option HashTable)}
    (ran : (pullWith settings remote known names).perform before = (outcome, after)) :
    ConfinedFrom (FrontArea settings start.foreign own start.disk.current all)
      start.foreign.path start.disk after := by
  induction names generalizing known before outcome after with
  | nil =>
    obtain ⟨_, rfl⟩ := Prod.mk.inj ran
    exact here
  | cons name rest inductionHypothesis =>
    obtain ⟨fresh, others⟩ := List.nodup_cons.1 distinct
    have among := within name List.mem_cons_self
    have seen (isSought : isLocal start.foreign name = false) (hash : Option String) :
        (pullPinned settings remote name hash).KeepsThroughout
          (ConfinedFrom (FrontArea settings start.foreign own start.disk.current all)
            start.foreign.path start.disk) :=
      confined_pullPinned store
        { source := .source name among isSought rfl
          document := .document name among isSought rfl
          log := .log name among isSought rfl
          catalog := .catalog rfl
          sibling := .sibling rfl
          store := fun _ => .store }
    have first : ∀ {answer between}, (pullName settings remote known name).perform before =
        (answer, between) → ConfinedFrom (FrontArea settings start.foreign own start.disk.current all)
          start.foreign.path start.disk between := by
      intro answer between ranFirst
      have same := sought name List.mem_cons_self
      cases pullName_ends ranFirst with
      | left _ => exact here
      | unplaced _ _ => exact here
      | unpinned _ _ failed =>
        exact pinned_keepsThroughout (confined_table remote) before _ between here failed
      | @seen hash _ ready _ answer isSought _ pinning seeing =>
        have there := pinned_keepsThroughout (confined_table remote) before _ ready here pinning
        exact seen (same ▸ isSought) hash ready answer between there seeing
    unfold pullWith at ran
    rcases Step.ends_bind ran with ⟨failure, failed, rfl⟩ | ⟨⟨count, table⟩, between, yields, ranRest⟩
    · exact first failed
    · obtain ⟨_, attends, knowsFirst⟩ := pullName_any knows yields
      obtain ⟨answer, later, _⟩ := Step.ends_map ranRest
      refine inductionHypothesis (fun other member => within other (List.mem_cons_of_mem name member))
        others (knowsFirst count table rfl) (fun other member => ?_) (first yields) later
      have different : other ≠ name := fun same => fresh (same ▸ member)
      rw [isLocal_congr (attends.others other (by simpa using different))]
      exact sought other (List.mem_cons_of_mem name member)

/-! ## Names that the table refuses -/

/-- A pull of names is the pull of the first of them and then, with the table, of the others. -/
theorem pullEach_append (back : List String) : pullEach settings remote known (front ++ back) = (do
    let (first, table) ← pullWith settings remote known front
    let others ← pullEach settings remote table back
    pure (first + others)) := by
  induction front generalizing known with
  | nil =>
    have zero : (HAdd.hAdd 0 : Nat → Nat) = id := funext Nat.zero_add
    simp [pullWith, zero]
  | cons name rest inductionHypothesis =>
    simp only [List.cons_append, pullEach, pullWith, inductionHypothesis, bind_assoc, pure_bind,
      Nat.add_assoc]

theorem pullEach_eq : pullEach settings remote known names = (do
    let (count, _) ← pullWith settings remote known names
    pure count) := by
  have whole : pullEach settings remote known (names ++ []) = _ := pullEach_append []
  rw [List.append_nil] at whole
  rw [whole]
  simp [pullEach]

/-- Why a table refuses a version: no row of its text has it, or the hash in the last row that has it
is too short. -/
def Refuses (text version : String) (failure : Failure) : Prop :=
  match HashTable.lastHash? version (Text.lines text) with
  | none => failure = .unknownTag version
  | some full => full.toList.length < CommitHash.shortLength ∧ failure = CommitHash.tooShort full

theorem get_refused {text version : String} {table : HashTable} {failure : Failure}
    (read : HashTable.ofText text = .ok table) (refuses : Refuses text version failure) :
    table.get version = .error failure := by
  rw [HashTable.get_ofText read]
  unfold Refuses at refuses
  split at refuses
  · next none => rw [none, refuses]
  · next full found =>
    rw [found, refuses.2]
    exact CommitHash.narrow_error refuses.1

/-- A name whose version the table refuses ends a pull where it stands. -/
theorem pullName_refused {version text : String} {table : HashTable} {failure : Failure}
    (knows : Knows known before.slot) (sought : isLocal before.foreign name = false)
    (passes : checkPlace name = .ok ()) (isVersion : (ObjectName.split name).2 = some version)
    (offers : Offers remote before text) (read : HashTable.ofText text = .ok table)
    (refuses : Refuses text version failure)
    {outcome : Except Failure (Nat × Option HashTable)}
    (ran : (pullName settings remote known name).perform before = (outcome, after)) :
    outcome = .error failure ∧ after.disk = before.disk ∧ after.foreign = before.foreign ∧
      ∃ gained, after.journal = before.journal ++ gained ∧ ∀ request ∈ gained, request = .table := by
  have isError := pinned_refused knows isVersion offers read (get_refused read refuses)
  cases pullName_ends ran with
  | left isLocal => exact absurd (isLocal.symm.trans sought) (by simp)
  | unplaced _ fails => exact absurd (fails.symm.trans passes) (by simp)
  | unpinned _ _ failed =>
    obtain ⟨gained, isReady, only, _⟩ := pinned_any knows failed
    rw [failed] at isError
    rw [isReady]
    exact ⟨congrArg _ (Except.error.inj isError), rfl, rfl, gained, rfl, only⟩
  | seen _ _ pinning _ =>
    rw [pinning] at isError
    exact absurd isError (by simp)

/-! ## Pulls that share a slot -/

/-- A pull, with what it started from and what became of it. -/
structure Pull where
  settings : Settings
  remote : Remote
  before : Workspace
  outcome : Except Failure Nat
  after : Workspace
  ran : (pullAll settings remote).perform before = (outcome, after)

namespace Pull

/-- What a pull asked of the outside. -/
def requests (pull : Pull) : List Request := pull.after.journal.drop pull.before.journal.length

/-- The names that the documents of a pull refer to. -/
def candidates (pull : Pull) : List String := referredNames pull.before.disk pull.before.foreign

/-- A pull ended at a name, which it neither fetched nor recorded: its files and its catalog are
those that the names before it left, and no file changed but at the places that these write to. -/
structure EndsAt (pull : Pull) (front : List String) (name : String) (reached : Workspace)
    (failure : Failure) : Prop where
  outcome : pull.outcome = .error failure
  unfetched : .source name ∉ pull.requests
  disk : pull.after.disk = reached.disk
  catalog : pull.after.foreign = reached.foreign
  record : pull.after.foreign.find? name = pull.before.foreign.find? name
  files : ∀ own : Location → Prop, pull.remote.KeepsTo own → pull.before.disk.Sound → ∀ location,
    ¬FrontArea pull.settings pull.before.foreign own pull.before.disk.current front location →
    ∀ content, pull.after.disk.entryAt? location = some (.file content) ↔
      pull.before.disk.entryAt? location = some (.file content)

/-- The versions of a pull are pinned before anything is touched. -/
structure Pinning (pull : Pull) : Prop where
  /-- The records that changed are pinned, and so are those of all fetched names when the pull
  succeeds; the text of the table is asked for once at most. -/
  attends : Attends pull.remote pull.candidates pull.before pull.after pull.requests pull.outcome
  /-- Where no name that is sought has a version, the table isn't asked for. -/
  plain : (∀ name ∈ pull.candidates, isLocal pull.before.foreign name = true ∨
    (ObjectName.split name).2 = none) → .table ∉ pull.requests
  /-- A version that the table refuses ends the pull, unless a name before it did. -/
  refuses : ∀ front name rest version, pull.candidates = front ++ name :: rest →
    isLocal pull.before.foreign name = false → checkPlace name = .ok () →
    (ObjectName.split name).2 = some version →
    (∃ failure, (pullEach pull.settings pull.remote none front).perform pull.before =
        (.error failure, pull.after) ∧ pull.outcome = .error failure) ∨
      ∃ count reached,
        (pullEach pull.settings pull.remote none front).Yields pull.before count reached ∧
        ∀ text table failure, Offers pull.remote reached text → HashTable.ofText text = .ok table →
          Refuses text version failure → pull.EndsAt front name reached failure

theorem perform_eq (pull : Pull) : (pullEach pull.settings pull.remote none pull.candidates).perform
    pull.before = (pull.outcome, pull.after) := pull.ran

theorem attends (pull : Pull) :
    Attends pull.remote pull.candidates pull.before pull.after pull.requests pull.outcome := by
  have distinct : pull.candidates.Nodup := nodup_referredNames _ _
  have knows : Knows none pull.before.slot := by simp [Knows]
  have ran := pull.perform_eq
  rw [pullEach_eq] at ran
  obtain ⟨answer, performed, isOutcome⟩ := Step.ends_map ran
  obtain ⟨gained, attends, _⟩ := pullWith_any distinct knows performed
  have isRequests : pull.requests = gained := by
    unfold requests
    rw [attends.journal, List.drop_left]
  rw [isRequests, isOutcome]
  exact attends.map Prod.fst

theorem pinning (pull : Pull) : pull.Pinning where
  attends := pull.attends
  plain none member := by
    obtain ⟨name, among, sought, ⟨_, version⟩ | wrong | wrong⟩ := pull.attends.requests _ member
    · rcases none name among with isLocal | plain
      · exact absurd (isLocal.symm.trans sought) (by simp)
      · exact version plain
    · exact absurd wrong (by simp)
    · exact absurd wrong (by simp)
  refuses front name rest version split sought passes isVersion := by
    have distinct : (front ++ name :: rest).Nodup := split ▸ nodup_referredNames _ _
    obtain ⟨distinctFront, _, apart⟩ := List.nodup_append.1 distinct
    have fresh : name ∉ front := fun member => apart name member name List.mem_cons_self rfl
    have knows : Knows none pull.before.slot := by simp [Knows]
    have ran := pull.perform_eq
    rw [split, pullEach_append] at ran
    rcases Step.ends_bind ran with ⟨failure, failed, same⟩ | ⟨⟨count, table⟩, reached, performed, ranRest⟩
    · refine Or.inl ⟨failure, ?_, same⟩
      rw [pullEach_eq, Step.perform_bind, failed]
    · obtain ⟨gained, attends, knowsReached⟩ := pullWith_any distinctFront knows performed
      refine Or.inr ⟨count, reached, pullEach_iff_pullWith.2 ⟨table, performed⟩, ?_⟩
      intro text rows failure offers read refuses
      have own : reached.foreign.find? name = pull.before.foreign.find? name :=
        attends.others name fresh
      have soughtThere : isLocal reached.foreign name = false :=
        (isLocal_congr own).trans sought
      obtain ⟨answer, ranName, isOutcome⟩ := Step.ends_map ranRest
      rw [pullEach] at ranName
      have stops : ∀ {result last}, (pullName pull.settings pull.remote table name).perform reached =
          (result, last) → result = .error failure ∧ last.disk = reached.disk ∧
            last.foreign = reached.foreign ∧ ∃ more, last.journal = reached.journal ++ more ∧
              ∀ request ∈ more, request = .table := fun ran =>
        pullName_refused (knowsReached count table rfl) soughtThere passes isVersion offers read
          refuses ran
      rcases Step.ends_bind ranName with ⟨cause, failed, rfl⟩ | ⟨_, _, yields, _⟩
      · obtain ⟨isFailure, disk, foreign, more, journal, only⟩ := stops failed
        rw [Except.error.inj isFailure] at isOutcome
        refine ⟨isOutcome, fun member => ?_, disk, foreign, ?_, ?_⟩
        · have isRequests : pull.requests = gained ++ more := by
            unfold requests
            rw [journal, attends.journal, List.append_assoc, List.drop_left]
          rw [isRequests] at member
          rcases List.mem_append.1 member with early | late
          · obtain ⟨other, among, _, ⟨wrong, _⟩ | same | wrong⟩ := attends.requests _ early
            · exact absurd wrong (by simp)
            · exact fresh (Request.source.inj same ▸ among)
            · exact absurd wrong (by simp)
          · exact absurd (only _ late) (by simp)
        · rw [foreign, own]
        · intro own store sound location free content
          have confined := (confined_pullWith store (fun _ => id) distinctFront knows
            (fun _ _ => rfl) ⟨rfl, .refl sound⟩ performed).2
          rw [disk]
          rcases confined.outside location free with same | ⟨nothing, directory⟩
          · rw [same]
          · rw [nothing, directory]
            simp
      · exact absurd (stops yields).1 (by simp)

end Pull

/-- Pulls one after the other that share a slot, from one state of it to another.  Between them
anything but the slot may change. -/
inductive Sharing : TableSlot → List Pull → TableSlot → Prop
  | nil (slot : TableSlot) : Sharing slot [] slot
  | cons {pull : Pull} {pulls : List Pull} {slot last : TableSlot} : pull.before.slot = slot →
      Sharing pull.after.slot pulls last → Sharing slot (pull :: pulls) last

/-- A slot that is filled is asked for nothing by any pull. -/
theorem Sharing.filled {first last : TableSlot} {pulls : List Pull} {text : String}
    (sharing : Sharing first pulls last) (filled : first.text = some text) :
    ∀ pull ∈ pulls, .table ∉ pull.requests ∧ pull.after.slot = first := by
  induction sharing with
  | nil => simp
  | @cons pull pulls slot last isSlot rest inductionHypothesis =>
    subst isSlot
    intro other member
    obtain ⟨never, same⟩ := pull.attends.asks.of_filled filled
    rcases List.mem_cons.1 member with rfl | behind
    · exact ⟨never, same⟩
    · rw [same] at inductionHypothesis
      exact inductionHypothesis filled other behind

/-- Versioned names are pinned before anything is touched, in every pull of a sequence that shares a
slot; and once the slot is filled no later pull asks for the text of the table. -/
theorem versions_pinned {first last : TableSlot} {pulls : List Pull}
    (sharing : Sharing first pulls last) :
    (∀ pull ∈ pulls, pull.Pinning) ∧
      (∀ pull ∈ pulls, pull.requests.count .table ≤ 1) ∧
      pulls.Pairwise fun early late => early.after.slot.text ≠ none →
        .table ∉ late.requests ∧ late.after.slot = early.after.slot := by
  refine ⟨fun pull _ => pull.pinning, fun pull _ => pull.attends.asks.count_le, ?_⟩
  induction sharing with
  | nil => exact List.Pairwise.nil
  | cons _ rest inductionHypothesis =>
    refine List.Pairwise.cons (fun late member filled => ?_) inductionHypothesis
    obtain ⟨text, isText⟩ := Option.ne_none_iff_exists'.1 filled
    exact rest.filled isText late member

/-! ## Places that names share -/

/-- The pull of a project. -/
def Pull.run (settings : Settings) (remote : Remote) (before : Workspace) : Pull :=
  ⟨settings, remote, before, _, _, rfl⟩

theorem Pull.before_run : (Pull.run settings remote before).before = before := rfl

/-- A project whose document has some objects. -/
def referringStart (objects : String) : Workspace :=
  { sampleStart with
    disk := ⟨[(["w"], .directory), (["w", "d.xmir"],
      .file (.text ("<program><objects>" ++ objects ++ "</objects></program>")))], ["w"], []⟩
    foreign := ⟨catalogPath sampleSettings.target,
      [{ Record.ofId "a" with optimized := some (.ofText "d.xmir") }]⟩ }

/-- The first of three pulls: the table can't be loaded. -/
def offlinePull : Pull :=
  .run sampleSettings { sampleRemote with table := fun _ => .error (.host "offline") }
    (referringStart "<o base=\x22b\x22 ver=\x221.0\x22/>")

/-- The second one: the table has the version. -/
def onlinePull : Pull :=
  .run sampleSettings { sampleRemote with table := fun _ => .ok "0123456789 1.0\n" } offlinePull.after

/-- The third one: the table can't be loaded again. -/
def laterPull : Pull :=
  .run { sampleSettings with overwrite := true }
    { sampleRemote with table := fun _ => .error (.host "offline") } onlinePull.after

theorem sharingPulls_facts :
    offlinePull.before.slot = .empty ∧ offlinePull.requests = [.table] ∧
      offlinePull.outcome = .error (.host "offline") ∧
      onlinePull.requests = [.table, .source "b|1.0", .document "b|1.0"] ∧
      onlinePull.after.slot.text = some "0123456789 1.0\n" ∧
      laterPull.outcome = .ok 1 ∧ .source "b|1.0" ∈ laterPull.requests ∧
      (laterPull.after.foreign.find? "b|1.0").map (fun record => (record.version, record.hash)) =
        some (some "1.0", some "0123456") := by
  decide +kernel

/-- The table is asked for by the first pull and by the second one, and by no later one. -/
theorem sample_pinned :
    Sharing .empty [offlinePull, onlinePull, laterPull] laterPull.after.slot ∧
      offlinePull.requests = [.table] ∧ .table ∈ onlinePull.requests ∧ .table ∉ laterPull.requests ∧
      laterPull.outcome = .ok 1 ∧ Pinned laterPull.after "b|1.0" := by
  obtain ⟨empty, offline, _, online, filled, isOk, fetched, _⟩ := sharingPulls_facts
  have sharing : Sharing .empty [offlinePull, onlinePull, laterPull] laterPull.after.slot := by
    have second : onlinePull.before = offlinePull.after := by rw [onlinePull, Pull.before_run]
    have third : laterPull.before = onlinePull.after := by rw [laterPull, Pull.before_run]
    exact .cons empty (.cons (by rw [second]) (.cons (by rw [third]) (.nil _)))
  obtain ⟨pinning, _, never⟩ := versions_pinned sharing
  have last := (List.pairwise_cons.1 (List.pairwise_cons.1 never).2).1 laterPull (by simp)
  refine ⟨sharing, offline, by simp [online], (last (by simp [filled])).1, isOk, ?_⟩
  exact (pinning laterPull (by simp)).attends.fetched 1 isOk "b|1.0" fetched

/-- A pull of two names with one place: the first is fetched, the version of the second is refused. -/
def meetingPull : Pull :=
  .run sampleSettings sampleRemote
    (referringStart "<o base=\x22a.b\x22 ver=\x220\x22/><o base=\x220.a.b\x22/>")

/-- What the names before the refused one come to. -/
def meetingFront : Except Failure Nat × Workspace :=
  (pullEach meetingPull.settings meetingPull.remote none ["0.a.b"]).perform meetingPull.before

theorem meetingPull_facts :
    meetingPull.candidates = ["0.a.b", "a.b|0"] ∧
      isLocal meetingPull.before.foreign "a.b|0" = false ∧ checkPlace "a.b|0" = .ok () ∧
      (ObjectName.split "a.b|0").2 = some "0" ∧ meetingFront.1 = .ok 1 ∧
      meetingFront.2.slot.text = none ∧ HashTable.ofText "" = .ok .empty ∧
      HashTable.lastHash? "0" (Text.lines "") = none ∧
      meetingPull.outcome = .error (.unknownTag "0") ∧
      meetingPull.before.disk.entryAt? ((pulledPlace meetingPull.settings.target "a.b|0").goal
        meetingPull.before.disk.current) = none ∧
      meetingPull.after.disk.entryAt? ((pulledPlace meetingPull.settings.target "a.b|0").goal
        meetingPull.before.disk.current) = some (.file (.text "<program><objects/></program>")) := by
  decide +kernel

/-- Not every source of a refused name is as it was before the pull: a name before it can have the
same place, and be fetched. -/
theorem refused_source_written :
    ¬∀ (pull : Pull) (front : List String) (name : String) (rest : List String)
      (version text : String) (table : HashTable) (failure : Failure) (count : Nat)
      (reached : Workspace),
      pull.candidates = front ++ name :: rest → isLocal pull.before.foreign name = false →
      checkPlace name = .ok () → (ObjectName.split name).2 = some version →
      (pullEach pull.settings pull.remote none front).Yields pull.before count reached →
      Offers pull.remote reached text → HashTable.ofText text = .ok table →
      Refuses text version failure →
      pull.outcome = .error failure ∧ ∀ content,
        pull.after.disk.entryAt? ((pulledPlace pull.settings.target name).goal
            pull.before.disk.current) = some (.file content) ↔
          pull.before.disk.entryAt? ((pulledPlace pull.settings.target name).goal
            pull.before.disk.current) = some (.file content) := by
  intro unchanged
  obtain ⟨names, sought, passes, version, front, empty, read, none, _, nothing, written⟩ :=
    meetingPull_facts
  have refuses : Refuses "" "0" (.unknownTag "0") := by
    unfold Refuses
    rw [none]
  have ran : (pullEach meetingPull.settings meetingPull.remote .none ["0.a.b"]).Yields
      meetingPull.before 1 meetingFront.2 := Step.yields_perform front
  have answers : ∀ disk, meetingPull.remote.table disk = .ok "" := fun _ => rfl
  have same := unchanged meetingPull ["0.a.b"] "a.b|0" [] "0" "" .empty (.unknownTag "0") 1
    meetingFront.2 names sought passes version ran (Or.inr ⟨empty, answers _⟩) read refuses
  have wrong := (same.2 _).1 written
  rw [nothing] at wrong
  exact absurd wrong (by simp)

end EoAssembly.Build
