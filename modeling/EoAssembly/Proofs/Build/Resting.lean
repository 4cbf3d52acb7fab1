import EoAssembly.Proofs.Build.Chosen
import EoAssembly.Proofs.Build.Precedence
import EoAssembly.Proofs.Disk.Tidy

/-!
Contract: cycles that find nothing to do.

When every object went through its stages, a cycle is its pull.  A pull leaves a name alone
that is an object of the project, whose source is recorded where it is, or whose log is there
without a source.  A pull that leaves all names alone may ask for the table of tags, and for
nothing else.

Owns `Rested`, `Pins`, and that a last cycle without work can be run again.
-/

namespace EoAssembly

namespace Build

variable {settings : Settings} {remote : Remote} {before between after : Workspace} {name : String}
  {tags : Except Failure String}

theorem namesIn_alike {first second : Disk} (alike : first.Alike second) (document : Path) :
    namesIn second document = namesIn first document := by
  unfold namesIn
  rw [Document.load_congr (alike.entry? document)]

theorem referredNames_alike {first second : Disk} (alike : first.Alike second) (catalog : Catalog) :
    referredNames second catalog = referredNames first catalog := by
  unfold referredNames
  refine congrArg Ordered.names (List.flatMap_congr fun record _ => ?_)
  unfold namesOfRecord
  simp only [namesIn_alike alike]

/-! ## The table of tags -/

/-- A step that asked for the table at most, and changed no records and no files. -/
structure Rested (before after : Workspace) : Prop where
  frame : ∃ slot journal, after = { before with slot := slot, journal := journal }
  asked : ∃ gained, after.journal = before.journal ++ gained ∧ ∀ request ∈ gained, request = .table

theorem Rested.refl (present : Workspace) : Rested present present :=
  ⟨⟨_, _, rfl⟩, [], (List.append_nil _).symm, by simp⟩

theorem Rested.trans (first : Rested before between) (second : Rested between after) :
    Rested before after := by
  obtain ⟨⟨_, _, rfl⟩, gained, isGained, tables⟩ := first
  obtain ⟨⟨slot, journal, same⟩, more, isMore, others⟩ := second
  refine ⟨⟨slot, journal, same⟩, gained ++ more, ?_, fun request member => ?_⟩
  · rw [isMore, isGained, List.append_assoc]
  · exact (List.mem_append.1 member).elim (tables request) (others request)

theorem Rested.disk (rested : Rested before after) : after.disk = before.disk := by
  obtain ⟨⟨_, _, rfl⟩, _⟩ := rested
  rfl

theorem Rested.foreign (rested : Rested before after) : after.foreign = before.foreign := by
  obtain ⟨⟨_, _, rfl⟩, _⟩ := rested
  rfl

theorem Rested.external (rested : Rested before after) : after.external = before.external := by
  obtain ⟨⟨_, _, rfl⟩, _⟩ := rested
  rfl

/-- What is loaded of the table, in the slot and by the pull, is the table. -/
structure Agrees (tags : Except Failure String) (slot : TableSlot) (known : Option HashTable) :
    Prop where
  slot : ∀ text ∈ slot.text, tags = .ok text
  known : ∀ table ∈ known, ∃ text, tags = .ok text ∧ HashTable.ofText text = .ok table

/-- The version of a name has its short hash in the table. -/
def Pins (tags : Except Failure String) (name : String) : Prop :=
  ∀ version ∈ (ObjectName.split name).2, ∃ text table hash, tags = .ok text ∧
    HashTable.ofText text = .ok table ∧ table.get version = .ok hash

section Table

variable (constant : ∀ disk, remote.table disk = tags)

include constant

theorem table_agrees {table : HashTable} {known : Option HashTable}
    (agrees : Agrees tags before.slot known) (ran : (Step.table remote).Yields before table after) :
    Rested before after ∧ Agrees tags after.slot (some table) := by
  cases Step.perform_table_iff.1 ran with
  | @kept text _ filled reads =>
    have isTags := agrees.slot text filled
    exact ⟨.refl before, agrees.slot, fun other same => ⟨text, isTags, Option.some.inj same ▸ reads⟩⟩
  | @loaded text _ _ answers reads =>
    rw [constant] at answers
    refine ⟨⟨⟨_, _, rfl⟩, [.table], rfl, by simp⟩, fun other same => ?_, fun other same =>
      ⟨text, answers, Option.some.inj same ▸ reads⟩⟩
    rw [answers, Option.some.inj (Option.mem_def.1 same)]

theorem table_yields {text : String} {table : HashTable} (agrees : Agrees tags before.slot none)
    (isTags : tags = .ok text) (isTable : HashTable.ofText text = .ok table) :
    ∃ after, (Step.table remote).Yields before table after := by
  cases filled : before.slot.text with
  | some other =>
    rw [Except.ok.inj (isTags.symm.trans (agrees.slot other filled))] at isTable
    exact ⟨before, Step.perform_table_iff.2 (.kept filled isTable)⟩
  | none =>
    exact ⟨_, Step.perform_table_iff.2 (.loaded filled ((constant _).trans isTags) isTable)⟩

/-- A name that is pinned has its hash in the table, and nothing but the table was asked for. -/
theorem pinned_agrees {known : Option HashTable} {result : Option String × Option HashTable}
    (agrees : Agrees tags before.slot known)
    (ran : (pinned remote known name).Yields before result after) :
    Rested before after ∧ Agrees tags after.slot result.2 ∧ Pins tags name := by
  unfold Pins
  rcases yields_pinned.1 ran with
    ⟨unversioned, rfl, rfl⟩ | ⟨version, table, hash, versioned, ranTable, isHash, rfl⟩
  · rw [unversioned]
    exact ⟨.refl _, agrees, by simp⟩
  · have loaded : Rested before after ∧ Agrees tags after.slot (some table) := by
      rcases yields_tableFor.1 ranTable with ⟨rfl, rfl⟩ | ⟨_, loads⟩
      · exact ⟨.refl _, agrees⟩
      · exact table_agrees constant agrees loads
    obtain ⟨text, isTags, isTable⟩ := loaded.2.known table rfl
    rw [versioned]
    refine ⟨loaded.1, loaded.2, fun other same => ?_⟩
    rw [← Option.some.inj same]
    exact ⟨text, table, hash, isTags, isTable, isHash⟩

/-- A name with its hash in the table is pinned. -/
theorem pinned_yields {known : Option HashTable} (agrees : Agrees tags before.slot known)
    (pins : Pins tags name) :
    ∃ result after, (pinned remote known name).Yields before result after := by
  unfold Pins at pins
  cases versioned : (ObjectName.split name).2 with
  | none => exact ⟨_, before, yields_pinned.2 (Or.inl ⟨versioned, rfl, rfl⟩)⟩
  | some version =>
    obtain ⟨text, table, hash, isTags, isTable, isHash⟩ := pins version versioned
    have loads : ∃ after, (tableFor remote known).Yields before table after := by
      cases isKnown : known with
      | some other =>
        obtain ⟨same, isSame, isOther⟩ := agrees.known other isKnown
        rw [Except.ok.inj (isSame.symm.trans isTags), isTable] at isOther
        exact ⟨before, yields_tableFor.2 (Or.inl ⟨congrArg some (Except.ok.inj isOther.symm), rfl⟩)⟩
      | none =>
        obtain ⟨after, loads⟩ := table_yields constant ⟨agrees.slot, by simp⟩ isTags isTable
        exact ⟨after, yields_tableFor.2 (Or.inr ⟨rfl, loads⟩)⟩
    obtain ⟨after, ranTable⟩ := loads
    exact ⟨_, after, yields_pinned.2
      (Or.inr ⟨version, table, hash, versioned, ranTable, isHash, rfl⟩)⟩

end Table

/-! ## Names that a pull leaves alone -/

theorem Skipped.alike {first second : Disk} {catalog : Catalog} (alike : first.Alike second)
    (skipped : Skipped settings first catalog name) : Skipped settings second catalog name := by
  unfold Skipped pullChoice at skipped ⊢
  rw [alike.exists? (pulledPlace settings.target name), alike.exists? (logPlace settings.protocols name)]
  exact skipped

section Pull

variable (constant : ∀ disk, remote.table disk = tags)

include constant

/-- A pull leaves a name alone, or ends with the source that was pulled for it. -/
theorem pullName_outcome {known : Option HashTable} {answer : Nat × Option HashTable}
    (keeps : settings.overwrite = false) (agrees : Agrees tags before.slot known)
    (ran : (pullName settings remote known name).Yields before answer after) :
    (Rested before after ∧ answer.1 = 0 ∧ Agrees tags after.slot answer.2 ∧
      Skipped settings before.disk before.foreign name ∧
      (isLocal before.foreign name = false → Pins tags name)) ∨
    (Taken settings name after ∧
      ¬(before.disk.exists? (pulledPlace settings.target name) = true ∧
        isRecorded before.foreign name (pulledPlace settings.target name) = true)) := by
  obtain ⟨count, table⟩ := answer
  rcases yields_pullName.1 ran with ⟨isLeft, same, rfl⟩ | ⟨sought, passes, hash, ready, ranPinned,
    ranPull⟩
  · obtain ⟨rfl, rfl⟩ := Prod.mk.inj same
    exact Or.inl ⟨.refl _, rfl, agrees, Or.inl isLeft, fun wrong => absurd isLeft (by simp [wrong])⟩
  obtain ⟨rested, agreesReady, pins⟩ := pinned_agrees constant agrees ranPinned
  cases yields_pullPinned.1 ranPull with
  | left leave =>
    rw [rested.disk] at leave
    exact Or.inl ⟨rested, rfl, agreesReady, Or.inr ⟨passes, Or.inl leave⟩, fun _ => pins⟩
  | fetched fetch _ ranRecord =>
    rw [rested.disk] at fetch
    refine Or.inr ⟨taken_recordPulled ranRecord, fun wrong => ?_⟩
    rw [pullChoice_fetch fetch keeps] at wrong
    exact absurd wrong.1 (by simp)
  | recorded _ unknown ranRecord =>
    refine Or.inr ⟨taken_recordPulled ranRecord, fun wrong => ?_⟩
    rw [rested.foreign, wrong.2] at unknown
    exact absurd unknown (by simp)
  | kept keep recorded =>
    rw [rested.disk] at keep
    rw [rested.foreign] at recorded
    exact Or.inl ⟨rested, rfl, agreesReady, Or.inr ⟨passes, Or.inr ⟨keep, recorded⟩⟩, fun _ => pins⟩

/-- A pull whose pulled records were all there, and where it left them, left all names alone. -/
theorem pullEach_rested {names : List String} {known : Option HashTable} {count : Nat}
    (keeps : settings.overwrite = false) (agrees : Agrees tags before.slot known)
    (placed : ∀ name record, before.foreign.find? name = some record → record.pulled = true →
      before.disk.exists? (pulledPlace settings.target name) = true ∧
        isRecorded before.foreign name (pulledPlace settings.target name) = true)
    (back : ∀ name, Described name (fun record => record.pulled = true) after →
      Described name (fun record => record.pulled = true) before)
    (ran : (pullEach settings remote known names).Yields before count after) :
    Rested before after ∧ count = 0 ∧ Agrees tags after.slot none ∧ ∀ name ∈ names,
      Skipped settings before.disk before.foreign name ∧
        (isLocal before.foreign name = false → Pins tags name) := by
  induction names generalizing before known count with
  | nil =>
    obtain ⟨rfl, rfl⟩ := Step.yields_pure.1 ran
    exact ⟨.refl _, rfl, ⟨agrees.slot, by simp⟩, by simp⟩
  | cons name rest inductionHypothesis =>
    obtain ⟨first, table, between, others, ranName, ranRest, rfl⟩ := yields_pullEach_cons.1 ran
    rcases pullName_outcome constant keeps agrees ranName with
      ⟨rested, none, agreesBetween, skipped, pins⟩ | ⟨taken, unplaced⟩
    · have same := rested.foreign
      have sameDisk := rested.disk
      obtain ⟨restedRest, noneRest, agreesLast, skippedRest⟩ :=
        inductionHypothesis agreesBetween (by rw [same, sameDisk]; exact placed)
          (fun other marked => (back other marked).of_foreign same) ranRest
      rw [same, sameDisk] at skippedRest
      have isZero : first = 0 := none
      refine ⟨rested.trans restedRest, by rw [isZero, noneRest], agreesLast,
        fun other member => ?_⟩
      rcases List.mem_cons.1 member with here | later
      · rw [here]
        exact ⟨skipped, pins⟩
      · exact skippedRest other later
    · -- what was taken is pulled at the end, so it was pulled and in its place before
      have pulled : Described name (fun record => record.pulled = true) between := by
        obtain ⟨record, found, isPulled, _⟩ := taken
        exact ⟨record, found, isPulled⟩
      obtain ⟨record, found, isPulled⟩ := back name
        ((supply_pulled settings remote name).pullEach table rest between others _ pulled ranRest)
      exact absurd (placed name record found isPulled) unplaced

/-- A pull of names that it leaves alone succeeds. -/
theorem pullEach_yields {names : List String} {known : Option HashTable}
    (agrees : Agrees tags before.slot known)
    (skipped : ∀ name ∈ names, Skipped settings before.disk before.foreign name ∧
      (isLocal before.foreign name = false → Pins tags name)) :
    ∃ after, (pullEach settings remote known names).Yields before 0 after ∧ Rested before after := by
  induction names generalizing before known with
  | nil => exact ⟨before, Step.yields_pure.2 ⟨rfl, rfl⟩, .refl _⟩
  | cons name rest inductionHypothesis =>
    obtain ⟨skippedName, pins⟩ := skipped name List.mem_cons_self
    have head : ∃ table between, (pullName settings remote known name).Yields before (0, table)
        between ∧ Rested before between ∧ Agrees tags between.slot table := by
      cases isLeft : isLocal before.foreign name with
      | true =>
        exact ⟨known, before, yields_pullName.2 (Or.inl ⟨isLeft, rfl, rfl⟩), .refl _, agrees⟩
      | false =>
        obtain ⟨pin, ready, ranPinned⟩ := pinned_yields constant agrees (pins isLeft)
        obtain ⟨rested, agreesReady, _⟩ := pinned_agrees constant agrees ranPinned
        have skippedReady : Skipped settings ready.disk ready.foreign name := by
          rw [rested.disk, rested.foreign]
          exact skippedName
        obtain ⟨passes, pulls⟩ := skippedReady.pullPinned remote pin.1
          (by rw [rested.foreign]; exact isLeft)
        exact ⟨pin.2, ready, yields_pullName.2 (Or.inr ⟨isLeft, passes, pin.1, ready, ranPinned,
          pulls⟩), rested, agreesReady⟩
    obtain ⟨table, between, ranName, rested, agreesBetween⟩ := head
    obtain ⟨after, ranRest, restedRest⟩ := inductionHypothesis agreesBetween
      (by rw [rested.disk, rested.foreign]
          exact fun other member => skipped other (List.mem_cons_of_mem _ member))
    exact ⟨after, yields_pullEach_cons.2 ⟨0, table, between, 0, ranName, ranRest, rfl⟩,
      rested.trans restedRest⟩

/-! ## Cycles without work -/

/-- What every stage of a cycle leaves alone. -/
structure Settled (settings : Settings) (tags : Except Failure String) (disk : Disk)
    (catalog : Catalog) : Prop where
  finished : ∀ record ∈ catalog.records, Finished record
  skipped : ∀ name ∈ referredNames disk catalog, Skipped settings disk catalog name ∧
    (isLocal catalog name = false → Pins tags name)

omit constant in
theorem Settled.alike {first second : Disk} {catalog : Catalog} (alike : first.Alike second)
    (settled : Settled settings tags first catalog) : Settled settings tags second catalog := by
  refine ⟨settled.finished, fun name member => ?_⟩
  rw [referredNames_alike alike] at member
  obtain ⟨skipped, pins⟩ := settled.skipped name member
  exact ⟨skipped.alike alike, pins⟩

omit constant in
theorem parseAll_yields (finished : ∀ record ∈ before.foreign.records, Finished record) :
    (parseAll settings remote).Yields before 0 before := by
  have nothing : unparsed before.foreign = [] := by
    refine List.map_eq_nil_iff.2 (List.filter_eq_nil_iff.2 fun record member waits => ?_)
    unfold awaitsParse at waits
    rw [Bool.and_eq_true, Option.isNone_iff_eq_none] at waits
    have parsed := (finished record member).1 waits.1
    rw [waits.2] at parsed
    exact absurd parsed (by simp)
  refine Step.yields_bind.2 ⟨_, _, Step.yields_look.2 ⟨nothing, rfl⟩, ?_⟩
  exact Step.yields_bind.2 ⟨(), before, Step.yields_pure.2 ⟨rfl, rfl⟩, Step.yields_pure.2 ⟨rfl, rfl⟩⟩

omit constant in
theorem optimizeAll_yields {target : Path}
    (finished : ∀ record ∈ before.foreign.records, Finished record) :
    (optimizeAll target).Yields before 0 before := by
  have nothing : unoptimized before.foreign = [] := by
    refine List.filterMap_eq_nil_iff.2 fun record member => ?_
    unfold awaitsOptimize
    split
    · next waits =>
      rw [Option.map_eq_none_iff]
      cases parsed : record.xmir with
      | none => rfl
      | some place =>
        have optimized := (finished record member).2.1 (by simp [parsed])
        rw [Option.isNone_iff_eq_none] at waits
        rw [waits] at optimized
        exact absurd optimized (by simp)
    · rfl
  refine Step.yields_bind.2 ⟨_, _, Step.yields_look.2 ⟨nothing, rfl⟩, ?_⟩
  refine Step.yields_bind.2 ⟨[], before, Step.yields_pure.2 ⟨rfl, rfl⟩, ?_⟩
  exact Step.yields_bind.2 ⟨(), before, Step.yields_pure.2 ⟨rfl, rfl⟩, Step.yields_pure.2 ⟨rfl, rfl⟩⟩

omit constant in
theorem discoverAll_yields (finished : ∀ record ∈ before.foreign.records, Finished record) :
    discoverAll.Yields before 0 before := by
  have each : ∀ records : List Record, (∀ record ∈ records, record.optimized = none) →
      (discoverEach records).Yields before 0 before := by
    intro records
    induction records with
    | nil => exact fun _ => Step.yields_pure.2 ⟨rfl, rfl⟩
    | cons record rest inductionHypothesis =>
      intro none
      refine Step.yields_bind.2 ⟨0, before, ?_, ?_⟩
      · unfold discoverObject
        rw [none record List.mem_cons_self]
        exact Step.yields_pure.2 ⟨rfl, rfl⟩
      · exact Step.yields_bind.2 ⟨0, before, inductionHypothesis fun other member =>
          none other (List.mem_cons_of_mem _ member), Step.yields_pure.2 ⟨rfl, rfl⟩⟩
  refine Step.yields_bind.2 ⟨_, _, Step.yields_look.2 ⟨rfl, rfl⟩, each _ fun record member => ?_⟩
  obtain ⟨among, waits⟩ := List.mem_filter.1 member
  cases optimized : record.optimized with
  | none => rfl
  | some place =>
    have discovered := (finished record among).2.2 (by simp [optimized])
    rw [Option.isNone_iff_eq_none] at waits
    rw [waits] at discovered
    exact absurd discovered (by simp)

/-- A build that is settled runs one cycle, which asks for the table at most. -/
theorem settle_yields (settled : Settled settings tags before.disk before.foreign)
    (agrees : Agrees tags before.slot none) (bound : Nat) :
    ∃ after, (settle settings remote (bound + 1)).Yields before (1, 0) after ∧
      Rested before after := by
  obtain ⟨after, ranPull, rested⟩ := pullEach_yields constant agrees settled.skipped
  refine ⟨after, ?_, rested⟩
  refine Step.yields_bind.2 ⟨_, _, Step.yields_look.2 ⟨rfl, rfl⟩, ?_⟩
  refine Step.yields_bind.2 ⟨0, after, ?_, ?_⟩
  · refine Step.yields_bind.2 ⟨_, _, parseAll_yields settled.finished, ?_⟩
    refine Step.yields_bind.2 ⟨_, _, optimizeAll_yields settled.finished, ?_⟩
    refine Step.yields_bind.2 ⟨_, _, discoverAll_yields settled.finished, ?_⟩
    exact Step.yields_bind.2 ⟨_, _, Step.yields_look.2 ⟨rfl, rfl⟩, ranPull⟩
  · refine Step.yields_bind.2 ⟨_, _, Step.yields_look.2 ⟨rfl, rfl⟩, ?_⟩
    rw [rested.foreign, if_pos rfl]
    exact Step.yields_pure.2 ⟨rfl, rfl⟩

end Pull

end Build

end EoAssembly
