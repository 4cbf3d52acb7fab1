import EoAssembly.Proofs.Build.Guarded

/-!
Contract: the parts of a pull, name by name.

Whether a name is fetched is a matter of what stands at the places of its source and
of its log.  To fetch it writes these two files and no other guarded one; to record it
changes its record alone; and to pin it fills the slot with a table that has its
version.

Owns `isChosen`, `isLeft`, the places of a name, `Skipped`, `Pinnable`, `Fetches`, `Alters`,
and a pull that answers with its table.
-/

namespace EoAssembly.Build

open ObjectName (Placeable checkPlace placeable_of_checkPlace)

variable {settings : Settings} {remote : Remote} {own : Location → Prop} {file : Path}
  {start before after : Workspace} {seen : List String} {name other : String}

/-! ## The names that are fetched -/

/-- Whether a source is fetched: it is overwritten, or neither it nor its log is there. -/
def isChosen (settings : Settings) (start : Workspace) (name : String) : Bool :=
  settings.overwrite || (!start.disk.exists? (pulledPlace settings.target name) &&
    !start.disk.exists? (logPlace settings.protocols name))

/-- Whether a name is left alone: only its log is there, and nothing is overwritten. -/
def isLeft (settings : Settings) (start : Workspace) (name : String) : Bool :=
  !settings.overwrite && !start.disk.exists? (pulledPlace settings.target name) &&
    start.disk.exists? (logPlace settings.protocols name)

/-- The names among others that are sought and fetched. -/
def chosenAmong (settings : Settings) (start : Workspace) (names : List String) : List String :=
  (names.filter fun name => !isLocal start.foreign name).filter (isChosen settings start)

/-- The names that a pull fetches. -/
def chosenNames (settings : Settings) (start : Workspace) : List String :=
  (soughtNames start).filter (isChosen settings start)

theorem pullChoice_eq : pullChoice start.disk settings.overwrite
    (pulledPlace settings.target name) (logPlace settings.protocols name) =
      if isChosen settings start name then .fetch else if isLeft settings start name then .leave
        else .keep := by
  unfold pullChoice isChosen isLeft
  cases settings.overwrite <;> cases start.disk.exists? (pulledPlace settings.target name) <;>
    cases start.disk.exists? (logPlace settings.protocols name) <;> rfl

theorem isLeft_of_chosen (chosen : isChosen settings start name = true) :
    isLeft settings start name = false := by
  revert chosen
  unfold isChosen isLeft
  cases settings.overwrite <;> cases start.disk.exists? (pulledPlace settings.target name) <;>
    cases start.disk.exists? (logPlace settings.protocols name) <;> simp

theorem isLocal_congr {first second : Catalog} (same : second.find? name = first.find? name) :
    isLocal second name = isLocal first name := by
  unfold isLocal
  rw [same]

theorem mem_chosenAmong {names : List String} : name ∈ chosenAmong settings start names ↔
    name ∈ names ∧ isLocal start.foreign name = false ∧ isChosen settings start name = true := by
  unfold chosenAmong
  rw [List.mem_filter, List.mem_filter, and_assoc]
  simp

theorem chosenAmong_append (front back : List String) :
    chosenAmong settings start (front ++ back) =
      chosenAmong settings start front ++ chosenAmong settings start back := by
  unfold chosenAmong
  rw [List.filter_append, List.filter_append]

theorem chosenAmong_of_chosen (sought : isLocal start.foreign name = false)
    (chosen : isChosen settings start name = true) : chosenAmong settings start [name] = [name] := by
  simp [chosenAmong, sought, chosen]

theorem chosenAmong_of_not (other : isLocal start.foreign name = true ∨
    isChosen settings start name = false) : chosenAmong settings start [name] = [] := by
  rcases other with ofProject | kept
  · simp [chosenAmong, ofProject]
  · rw [List.eq_nil_iff_forall_not_mem]
    intro other member
    obtain ⟨isName, _, chosen⟩ := mem_chosenAmong.1 member
    rw [List.mem_singleton.1 isName, kept] at chosen
    exact absurd chosen (by simp)

/-! ## Places -/

/-- No source is at or below the place of another one, and no log is. -/
def Unnested (settings : Settings) (current : Location) (names : List String) : Prop :=
  ∀ name ∈ names, ∀ other ∈ names, name ≠ other →
    ¬(pulledPlace settings.target name).goal current <+:
      (pulledPlace settings.target other).goal current ∧
    ¬(logPlace settings.protocols name).goal current <+:
      (logPlace settings.protocols other).goal current

section Places

variable {current : Location} (disjoint : Disjoint settings own file current)
  (placeable : Placeable name)

include placeable

theorem guarded_pulledPlace :
    Guarded settings current ((pulledPlace settings.target name).goal current) := by
  refine Or.inl ?_
  rw [goal_pulledDirectory, goal_pulledPlace settings current placeable]
  exact (List.prefix_append_right_inj _).2 (List.cons_prefix_cons.2 ⟨rfl, List.nil_prefix⟩)

theorem guarded_logPlace :
    Guarded settings current ((logPlace settings.protocols name).goal current) := by
  refine Or.inr ?_
  rw [goal_logPlace settings current placeable]
  exact List.prefix_append _ _

theorem passable_pulledPlace {disk : Disk} (passable : disk.Passable settings.target) :
    disk.Passable (pulledPlace settings.target name) := by
  unfold Disk.Passable
  rw [left_pulledPlace settings disk.current placeable]
  exact passable

theorem passable_logPlace {disk : Disk} (passable : disk.Passable settings.protocols) :
    disk.Passable (logPlace settings.protocols name) := by
  unfold Disk.Passable
  rw [left_logPlace settings disk.current placeable]
  exact passable

include disjoint

/-- A source is in another directory than a log. -/
theorem source_apart_log (placeableOther : Placeable other) :
    ¬(pulledPlace settings.target name).goal current <+:
      (logPlace settings.protocols other).goal current ∧
    ¬(logPlace settings.protocols other).goal current <+:
      (pulledPlace settings.target name).goal current := by
  rw [goal_pulledPlace settings current placeable, goal_logPlace settings current placeableOther]
  have apart : ∀ {longer : Location}, settings.target.goal current <+: longer →
      settings.protocols.goal current <+: longer → False := by
    intro longer target protocols
    rcases List.prefix_or_prefix_of_prefix target protocols with above | below
    · exact disjoint.target above
    · exact disjoint.protocols below
  constructor
  · intro above
    exact apart ((List.prefix_append _ _).trans above) (List.prefix_append _ _)
  · intro above
    exact apart (List.prefix_append _ _) ((List.prefix_append _ _).trans above)

end Places

/-! ## Names that a pull leaves alone -/

/-- A pull leaves a name alone. -/
def Skipped (settings : Settings) (disk : Disk) (catalog : Catalog) (name : String) : Prop :=
  isLocal catalog name = true ∨
  ObjectName.checkPlace name = .ok () ∧
    (pullChoice disk settings.overwrite (pulledPlace settings.target name)
        (logPlace settings.protocols name) = .leave ∨
      pullChoice disk settings.overwrite (pulledPlace settings.target name)
        (logPlace settings.protocols name) = .keep ∧
      isRecorded catalog name (pulledPlace settings.target name) = true)

/-- A name that is sought and left alone passes its check, and pulling it does nothing. -/
theorem Skipped.pullPinned (skipped : Skipped settings before.disk before.foreign name)
    (remote : Remote) (hash : Option String) (sought : isLocal before.foreign name = false) :
    checkPlace name = .ok () ∧
      (Build.pullPinned settings remote name hash).Yields before 0 before := by
  obtain ⟨passes, choice⟩ := skipped.resolve_left (by simp [sought])
  refine ⟨passes, ?_⟩
  rcases choice with leave | ⟨keep, recorded⟩
  · exact yields_pullPinned.2 (.left leave)
  · exact yields_pullPinned.2 (.kept keep recorded)

/-! ## The hash of a version -/

/-- The table of a slot has the version of a name. -/
def Pinnable (slot : TableSlot) (name : String) : Prop :=
  ∀ version, (ObjectName.split name).2 = some version → ∃ text table hash,
    slot.text = some text ∧ HashTable.ofText text = .ok table ∧ table.get version = .ok hash

/-- A table that is known is the one of a slot. -/
def Knows (known : Option HashTable) (slot : TableSlot) : Prop :=
  ∀ table, known = some table → ∃ text, slot.text = some text ∧ HashTable.ofText text = .ok table

theorem Pinnable.later {slot later : TableSlot} (pins : Pinnable slot name)
    (kept : ∀ text, slot.text = some text → later = slot) : Pinnable later name := by
  intro version isVersion
  obtain ⟨text, table, hash, isText, rest⟩ := pins version isVersion
  rw [kept text isText]
  exact ⟨text, table, hash, isText, rest⟩

theorem table_slot {table : HashTable} (ran : (Step.table remote).Yields before table after) :
    (∃ text, after.slot.text = some text ∧ HashTable.ofText text = .ok table) ∧
      ∀ text, before.slot.text = some text → after.slot = before.slot := by
  cases Step.perform_table_iff.1 ran with
  | kept filled reads => exact ⟨⟨_, filled, reads⟩, fun _ _ => rfl⟩
  | loaded empty _ reads => exact ⟨⟨_, rfl, reads⟩, by simp [empty]⟩

/-- A slot that is filled answers without asking. -/
theorem table_filled {text : String} {table : HashTable} (filled : before.slot.text = some text)
    (read : HashTable.ofText text = .ok table) :
    (Step.table remote).Yields before table before :=
  Step.perform_table_iff.2 (.kept filled read)

/-- Pinning a name fills the slot with a table that has its version, and touches nothing else. -/
theorem pinned_slot {known : Option HashTable} {result : Option String × Option HashTable}
    (knows : Knows known before.slot)
    (ran : (pinned remote known name).Yields before result after) :
    Pinnable after.slot name ∧ Knows result.2 after.slot ∧
      ∀ text, before.slot.text = some text → after.slot = before.slot := by
  rcases yields_pinned.1 ran with
    ⟨plain, rfl, rfl⟩ | ⟨version, table, hash, isVersion, ranTable, found, rfl⟩
  · exact ⟨fun version isVersion => absurd (plain.symm.trans isVersion) (by simp), knows,
      fun _ _ => rfl⟩
  · have filled : (∃ text, after.slot.text = some text ∧ HashTable.ofText text = .ok table) ∧
        ∀ text, before.slot.text = some text → after.slot = before.slot := by
      rcases yields_tableFor.1 ranTable with ⟨isKnown, rfl⟩ | ⟨_, loads⟩
      · exact ⟨knows table isKnown, fun _ _ => rfl⟩
      · exact table_slot loads
    obtain ⟨⟨text, isText, read⟩, kept⟩ := filled
    refine ⟨fun other isOther => ?_, fun other isOther => ?_, kept⟩
    · rw [← Option.some.inj (isVersion.symm.trans isOther)]
      exact ⟨text, table, hash, isText, read, found⟩
    · rw [← Option.some.inj isOther]
      exact ⟨text, isText, read⟩

/-- A name is pinned again without asking when the slot has the table with its version. -/
theorem pinned_again {known : Option HashTable} (remote : Remote)
    (pins : Pinnable before.slot name) (knows : Knows known before.slot) :
    ∃ hash table, (pinned remote known name).Yields before (hash, table) before ∧
      Knows table before.slot := by
  cases isVersion : (ObjectName.split name).2 with
  | none => exact ⟨none, known, yields_pinned.2 (Or.inl ⟨isVersion, rfl, rfl⟩), knows⟩
  | some version =>
    obtain ⟨text, table, hash, isText, read, found⟩ := pins version isVersion
    have answers : (tableFor remote known).Yields before table before := by
      apply yields_tableFor.2
      cases isKnown : known with
      | none => exact Or.inr ⟨rfl, table_filled isText read⟩
      | some other =>
        obtain ⟨text', isText', read'⟩ := knows other isKnown
        rw [Option.some.inj (isText.symm.trans isText'), read'] at read
        exact Or.inl ⟨congrArg some (Except.ok.inj read), rfl⟩
    refine ⟨some hash, some table, ?_, fun other isOther => ⟨text, isText, ?_⟩⟩
    · exact yields_pinned.2 (Or.inr ⟨version, table, hash, isVersion, answers, found, rfl⟩)
    · rw [← Option.some.inj isOther]
      exact read

/-! ## What fetching a source writes -/

/-- The goals of the sources and the logs of names. -/
def goalsOf (settings : Settings) (current : Location) (names : List String) : List Location :=
  names.flatMap fun name =>
    [(pulledPlace settings.target name).goal current, (logPlace settings.protocols name).goal current]

theorem mem_goalsOf {current location : Location} {names : List String} :
    location ∈ goalsOf settings current names ↔ ∃ name ∈ names,
      location = (pulledPlace settings.target name).goal current ∨
        location = (logPlace settings.protocols name).goal current := by
  unfold goalsOf
  rw [List.mem_flatMap]
  simp

/-- Nothing happened at a location but that a directory was made on the way to a goal. -/
def Spared (goals : List Location) (before after : Disk) (location : Location) : Prop :=
  after.entryAt? location = before.entryAt? location ∨
    ((∃ goal ∈ goals, location <+: goal) ∧ before.entryAt? location = none ∧
      after.entryAt? location = some .directory)

namespace Spared

variable {goals more : List Location} {first second third : Disk} {location : Location}

theorem trans (one : Spared goals first second location) (two : Spared more second third location) :
    Spared (goals ++ more) first third location := by
  rcases one with same | ⟨⟨goal, member, above⟩, nothing, made⟩
  · rcases two with still | ⟨⟨goal, member, above⟩, nothing, made⟩
    · exact Or.inl (still.trans same)
    · rw [same] at nothing
      exact Or.inr ⟨⟨goal, List.mem_append_right _ member, above⟩, nothing, made⟩
  · rcases two with still | ⟨_, wrong, _⟩
    · exact Or.inr ⟨⟨goal, List.mem_append_left _ member, above⟩, nothing, still.trans made⟩
    · rw [made] at wrong
      exact absurd wrong (by simp)

theorem same (spared : Spared goals first second location)
    (off : ∀ goal ∈ goals, ¬location <+: goal) :
    second.entryAt? location = first.entryAt? location := by
  rcases spared with same | ⟨⟨goal, member, above⟩, _⟩
  · exact same
  · exact absurd above (off goal member)

/-- A directory that is made is no file, and there was none before. -/
theorem file_iff (spared : Spared goals first second location) (content : FileContent) :
    second.entryAt? location = some (.file content) ↔
      first.entryAt? location = some (.file content) := by
  rcases spared with same | ⟨_, nothing, made⟩
  · rw [same]
  · rw [nothing, made]
    simp

end Spared

/-- The source of a name is a text, and its log says where the source is. -/
structure Provided (settings : Settings) (disk : Disk) (name text instant : String) : Prop where
  source : disk.entry? (pulledPlace settings.target name) = some (.file (.text text))
  log : disk.entry? (logPlace settings.protocols name) = some (.file (.text
    (logText (pulledPlace settings.target name) instant)))

/-- The places of a name hold what they held when nothing happened there. -/
theorem Walkable.entry_congr {current : Location} {path : Path}
    (walkable : Walkable settings file current before)
    (later : Walkable settings file current after)
    (passable : ∀ {disk : Disk}, disk.Passable settings.target → disk.Passable settings.protocols →
      disk.Passable path)
    (same : after.disk.entryAt? (path.goal current) = before.disk.entryAt? (path.goal current)) :
    after.disk.entry? path = before.disk.entry? path := by
  refine Disk.entry_congr (later.current.trans walkable.current.symm)
    (iff_of_true (passable later.target later.protocols)
      (passable walkable.target walkable.protocols)) ?_
  rw [walkable.current]
  exact same

theorem Walkable.entry_pulledPlace {current : Location} (placeable : Placeable name)
    (walkable : Walkable settings file current before)
    (later : Walkable settings file current after)
    (same : after.disk.entryAt? ((pulledPlace settings.target name).goal current) =
      before.disk.entryAt? ((pulledPlace settings.target name).goal current)) :
    after.disk.entry? (pulledPlace settings.target name) =
      before.disk.entry? (pulledPlace settings.target name) :=
  walkable.entry_congr later (fun target _ => passable_pulledPlace placeable target) same

theorem Walkable.entry_logPlace {current : Location} (placeable : Placeable name)
    (walkable : Walkable settings file current before)
    (later : Walkable settings file current after)
    (same : after.disk.entryAt? ((logPlace settings.protocols name).goal current) =
      before.disk.entryAt? ((logPlace settings.protocols name).goal current)) :
    after.disk.entry? (logPlace settings.protocols name) =
      before.disk.entry? (logPlace settings.protocols name) :=
  walkable.entry_congr later (fun _ protocols => passable_logPlace placeable protocols) same

/-- What is provided stays so when nothing happens at the places of the name. -/
theorem Provided.later {current : Location} {text instant : String}
    (provided : Provided settings before.disk name text instant) (placeable : Placeable name)
    (walkable : Walkable settings file current before)
    (later : Walkable settings file current after)
    (same : ∀ location, location = (pulledPlace settings.target name).goal current ∨
      location = (logPlace settings.protocols name).goal current →
      after.disk.entryAt? location = before.disk.entryAt? location) :
    Provided settings after.disk name text instant where
  source := (walkable.entry_pulledPlace placeable later (same _ (Or.inl rfl))).trans provided.source
  log := (walkable.entry_logPlace placeable later (same _ (Or.inr rfl))).trans provided.log

/-- What fetching the source of a name does. -/
structure Fetches (settings : Settings) (remote : Remote) (file : Path) (current : Location)
    (name text : String) (before after : Workspace) : Prop where
  walkable : Walkable settings file current after
  answered : (remote.fetch name before.disk).1 = .ok text
  provided : Provided settings after.disk name text before.instant
  files : ∀ location, Guarded settings current location →
    location ∉ goalsOf settings current [name] →
    Spared (goalsOf settings current [name]) before.disk after.disk location
  asked : sourcesAsked after.journal = sourcesAsked before.journal ++ [name]
  foreign : after.foreign = before.foreign
  slot : after.slot = before.slot
  instant : after.instant = before.instant

/-- Writing a file below the way to its place. -/
theorem Walkable.write {current : Location} {path : Path} {text : String}
    (walkable : Walkable settings file current before) (passable : before.disk.Passable path)
    (ran : (Step.write path text).Yields before () after) :
    Walkable settings file current after ∧
      after.disk.entry? path = some (.file (.text text)) ∧
      (∀ location, location ≠ path.goal current →
        Spared [path.goal current] before.disk after.disk location) ∧
      after = { before with disk := after.disk } := by
  obtain ⟨disk, wrote, result⟩ := Step.yields_write.1 ran
  obtain ⟨ends, passableAfter, touches, stands⟩ := Document.writeBelow_ok walkable.sound wrote
  rw [result]
  refine ⟨walkable.touch touches, ?_, fun location other => ?_, rfl⟩
  · rw [Disk.entry_of_name ends passableAfter, touches.current]
    exact stands
  · rw [← walkable.current] at other ⊢
    rcases touches.onward walkable.sound passable (by simpa using other) (by simp) with same | made
    · exact Or.inl same
    · exact Or.inr ⟨⟨_, List.mem_singleton_self _, made.1⟩, made.2⟩

theorem fetchSource_writes {current : Location}
    (walkable : Walkable settings file current before) (disjoint : Disjoint settings own file current)
    (store : remote.KeepsTo own) (placeable : Placeable name)
    (ran : (fetchSource remote name (pulledPlace settings.target name)
      (logPlace settings.protocols name)).Yields before () after) :
    ∃ text, Fetches settings remote file current name text before after := by
  obtain ⟨text, fetched, middle, ranFetch, wroteSource, wroteLog⟩ := yields_fetchSource.1 ran
  obtain ⟨walkableFetched, answered, untouched, asked, foreign, slot, instant⟩ :=
    fetch_asks walkable disjoint store ranFetch
  obtain ⟨walkableMiddle, source, sparedSource, isMiddle⟩ :=
    walkableFetched.write (passable_pulledPlace placeable walkableFetched.target) wroteSource
  obtain ⟨walkableAfter, log, sparedLog, isAfter⟩ :=
    walkableMiddle.write (passable_logPlace placeable walkableMiddle.protocols) wroteLog
  obtain ⟨off, offBack⟩ := source_apart_log disjoint placeable placeable
  have sameInstant : middle.instant = before.instant := by
    rw [isMiddle]
    exact instant
  have outside : (pulledPlace settings.target name).goal current ≠
      (logPlace settings.protocols name).goal current := by
    intro same
    rw [same] at off
    exact off List.prefix_rfl
  have sourceAfter := walkableMiddle.entry_pulledPlace placeable walkableAfter
    ((sparedLog _ outside).same (by simpa using off))
  refine ⟨text, walkableAfter, answered, ⟨sourceAfter.trans source, sameInstant ▸ log⟩,
    fun location guarded outside => ?_, ?_, ?_, ?_, ?_⟩
  · rw [mem_goalsOf] at outside
    simp only [List.mem_singleton, exists_eq_left, not_or] at outside
    have first : Spared [] before.disk fetched.disk location := Or.inl (untouched location guarded)
    exact (first.trans (sparedSource location outside.1)).trans (sparedLog location outside.2)
  · rw [isAfter, isMiddle]
    exact asked
  · rw [isAfter, isMiddle]
    exact foreign
  · rw [isAfter, isMiddle]
    exact slot
  · rw [isAfter]
    exact sameInstant

/-! ## What recording a source changes -/

theorem parseObject_catalog {place : Path}
    (ran : (parseObject settings remote name).Yields before place after) :
    ∃ old, before.foreign.find? name = some old ∧
      after.foreign = before.foreign.put { asParsed place old with id := name } := by
  obtain ⟨rfl, _, _, _, _, parsed, saved, _, _, _, ranParse, _, ranSave, ranUpdate⟩ :=
    yields_parseObject.1 ran
  obtain ⟨text, disk, _, _, isSaved⟩ := Step.yields_save.1 ranSave
  have same : saved.foreign = before.foreign := by
    rw [isSaved, (Step.yields_parse.1 ranParse).2]
  obtain ⟨old, found, changed, sameId, put⟩ := updateForeign_catalog ranUpdate
  rw [same] at found put
  refine ⟨old, found, ?_⟩
  rw [put, changed, Catalog.id_of_find? found]

/-- A change to the record of one object that keeps its optimized document. -/
structure Alters (name : String) (before after : Catalog) : Prop where
  others : ∀ other, name ≠ other → after.find? other = before.find? other
  optimized : (after.find? name).bind Record.optimized = (before.find? name).bind Record.optimized

namespace Alters

variable {first second third : Catalog}

theorem refl (name : String) (catalog : Catalog) : Alters name catalog catalog :=
  ⟨fun _ _ => rfl, rfl⟩

theorem trans (one : Alters name first second) (two : Alters name second third) :
    Alters name first third :=
  ⟨fun other differs => (two.others other differs).trans (one.others other differs),
    two.optimized.trans one.optimized⟩

theorem put {record : Record} (sameId : record.id = name)
    (same : record.optimized = (first.find? name).bind Record.optimized) :
    Alters name first (first.put record) := by
  refine ⟨fun other differs => Catalog.find?_put_other first (sameId ▸ differs), ?_⟩
  rw [← sameId, Catalog.find?_put_same, sameId, ← same]
  rfl

end Alters

/-- Recording a pulled source is quiet, and alters no other record. -/
theorem recordPulled_alters {current : Location} {hash : Option String}
    (walkable : Walkable settings file current before) (disjoint : Disjoint settings own file current)
    (placeable : Placeable name)
    (ran : (recordPulled settings remote name (pulledPlace settings.target name) hash).Yields
      before () after) :
    Walkable settings file current after ∧ Quiet settings current before after ∧
      Alters name before.foreign after.foreign ∧
      isRecorded after.foreign name (pulledPlace settings.target name) = true := by
  obtain ⟨_, added, record, updated, ranAdd, ranUpdate, rest⟩ := yields_recordPulled.1 ran
  obtain ⟨walkableAdded, quietAdded⟩ := quiet_add walkable disjoint ranAdd
  obtain ⟨walkableUpdated, quietUpdated⟩ := quiet_update walkableAdded disjoint ranUpdate
  have altersAdded : Alters name before.foreign added.foreign := by
    rcases addForeign_catalog ranAdd with ⟨_, same⟩ | ⟨missing, same⟩
    · rw [same]
      exact .refl name before.foreign
    · rw [same]
      refine .put rfl ?_
      rw [missing]
      rfl
  obtain ⟨old, found, changed, sameId, isUpdated⟩ := updateForeign_catalog ranUpdate
  have altersUpdated : Alters name before.foreign updated.foreign := by
    refine altersAdded.trans ?_
    rw [isUpdated]
    refine .put sameId ?_
    rw [found, changed]
    rfl
  have foundUpdated : updated.foreign.find? name = some record := updateForeign_find? ranUpdate
  have isPulled : record.pulled = true ∧
      record.source = some (pulledPlace settings.target name) := by
    rw [changed]
    exact ⟨rfl, rfl⟩
  have quiet := quietAdded.trans quietUpdated
  rcases rest with ⟨_, place, ranParse⟩ | ⟨_, rfl⟩
  · obtain ⟨walkableParsed, quietParsed⟩ := quiet_parseObject walkableUpdated disjoint placeable ranParse
    obtain ⟨twin, foundTwin, isParsed⟩ := parseObject_catalog ranParse
    rw [foundUpdated] at foundTwin
    obtain rfl := Option.some.inj foundTwin
    refine ⟨walkableParsed, quiet.trans quietParsed, altersUpdated.trans ?_, ?_⟩
    · rw [isParsed]
      refine .put rfl ?_
      rw [foundUpdated]
      rfl
    · rw [isParsed]
      exact isRecorded_of_pulled (Catalog.find?_put_same _ _) isPulled.1 isPulled.2
  · exact ⟨walkableUpdated, quiet, altersUpdated,
      isRecorded_of_pulled foundUpdated isPulled.1 isPulled.2⟩

/-! ## Pulling with the table -/

/-- Pulls names, and answers with the table too if it is known then. -/
def pullWith (settings : Settings) (remote : Remote) (known : Option HashTable) :
    List String → Step (Nat × Option HashTable)
  | [] => pure (0, known)
  | name :: rest => do
    let (first, table) ← pullName settings remote known name
    let (others, last) ← pullWith settings remote table rest
    pure (first + others, last)

theorem pullEach_iff_pullWith {known : Option HashTable} {names : List String} {count : Nat} :
    (pullEach settings remote known names).Yields before count after ↔
      ∃ table, (pullWith settings remote known names).Yields before (count, table) after := by
  induction names generalizing known before count with
  | nil =>
    simp only [pullEach, pullWith, Step.yields_pure, Prod.mk.injEq]
    constructor
    · rintro ⟨zero, same⟩
      exact ⟨known, ⟨zero, rfl⟩, same⟩
    · rintro ⟨_, ⟨zero, _⟩, same⟩
      exact ⟨zero, same⟩
  | cons name rest inductionHypothesis =>
    simp only [pullEach, pullWith, Step.yields_bind, Step.yields_pure]
    constructor
    · rintro ⟨first, between, ran, others, _, ranRest, sum, rfl⟩
      obtain ⟨table, ranRest⟩ := inductionHypothesis.1 ranRest
      exact ⟨table, first, between, ran, (others, table), _, ranRest, by rw [← sum], rfl⟩
    · rintro ⟨table, first, between, ran, ⟨others, last⟩, _, ranRest, same, rfl⟩
      exact ⟨first, between, ran, others, _, inductionHypothesis.2 ⟨last, ranRest⟩,
        (Prod.mk.inj same).1, rfl⟩

theorem pullWith_append {known last : Option HashTable} {front back : List String} {total : Nat} :
    (pullWith settings remote known (front ++ back)).Yields before (total, last) after ↔
      ∃ first table between others,
        (pullWith settings remote known front).Yields before (first, table) between ∧
        (pullWith settings remote table back).Yields between (others, last) after ∧
        first + others = total := by
  induction front generalizing known before total with
  | nil =>
    simp only [List.nil_append, pullWith, Step.yields_pure, Prod.mk.injEq]
    constructor
    · intro ran
      exact ⟨0, known, before, total, ⟨⟨rfl, rfl⟩, rfl⟩, ran, Nat.zero_add total⟩
    · rintro ⟨_, _, _, _, ⟨⟨rfl, rfl⟩, rfl⟩, ran, rfl⟩
      rw [Nat.zero_add]
      exact ran
  | cons name rest inductionHypothesis =>
    simp only [List.cons_append, pullWith, Step.yields_bind, Step.yields_pure, Prod.mk.injEq]
    constructor
    · rintro ⟨pulled, between, ran, ⟨others, _⟩, _, ranRest, ⟨rfl, rfl⟩, rfl⟩
      obtain ⟨first, table, middle, more, ranFront, ranBack, sum⟩ := inductionHypothesis.1 ranRest
      refine ⟨pulled.1 + first, table, middle, more,
        ⟨pulled, between, ran, (first, table), middle, ranFront, ⟨rfl, rfl⟩, rfl⟩, ranBack, ?_⟩
      rw [Nat.add_assoc, sum]
    · rintro ⟨_, _, _, more, ⟨pulled, between, ran, ⟨first, table⟩, middle, ranFront, ⟨rfl, rfl⟩, rfl⟩,
        ranBack, sum⟩
      refine ⟨pulled, between, ran, (first + more, last), after,
        inductionHypothesis.2 ⟨first, table, middle, more, ranFront, ranBack, rfl⟩, ⟨?_, rfl⟩, rfl⟩
      rw [← Nat.add_assoc]
      exact sum

end EoAssembly.Build
