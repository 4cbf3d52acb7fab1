import EoAssembly.Proofs.Catalog.Editing

/-!
Contract: what a sequence of edits leaves on the disk when writes fail.

The file of a catalog always opens as the records that were in memory when it was
written last.  An edit that fails leaves the file, but its record stays in memory;
so an edit that is answered is durable when it writes, and when it does not, exactly
if its record was in memory already at the last write.

Owns `Session`, which runs edits and remembers the last write, and the exact law of
what is durable.
-/

namespace EoAssembly.Catalog

variable {catalog after opened : Catalog} {disk next start : Disk} {path : Path} {record : Record}
  {outcome : Except Failure Record}

/-- A catalog in use.  Beside the records in memory and the disk it holds what the program
does not know: the catalog as it was written last, and the ids of the edits that could not
be written since. -/
structure Session where
  catalog : Catalog
  disk : Disk
  saved : Catalog
  pending : List String

namespace Session

/-- A catalog that was opened. -/
def opening (catalog : Catalog) (disk : Disk) : Session := ⟨catalog, disk, catalog, []⟩

/-- One more edit, whatever its answer is. -/
def edit (session : Session) (edit : Edit) : Session :=
  match edit.perform session.catalog session.disk with
  | (outcome, after, next) =>
    match edit.target? session.catalog, outcome with
    | none, _ => { session with catalog := after, disk := next }
    | some _, .ok _ => ⟨after, next, after, []⟩
    | some _, .error _ =>
      { session with catalog := after, disk := next, pending := edit.subject :: session.pending }

/-- The file of a session opens as what was written last, and the records in memory are those,
apart from the ids of edits that could not be written. -/
structure Faithful (path : Path) (base : Location) (session : Session) : Prop where
  isPath : session.catalog.path = path
  fit : session.catalog.Fit
  sound : session.disk.Sound
  current : session.disk.current = base
  housed : Housed path base
  way : session.disk.Passable path
  file : ∃ stored, openAt session.disk path = .ok stored ∧ stored.Alike session.saved
  memory : ∀ id ∉ session.pending,
    Option.Rel Record.Same (session.saved.find? id) (session.catalog.find? id)

theorem faithful_opening (sound : start.Sound) (housed : Housed path start.current)
    (way : start.Passable path) (isOpen : openAt start path = .ok opened) :
    Faithful path start.current (opening opened start) where
  isPath := (openAt_ok isOpen).1
  fit := fit_openAt isOpen
  sound := sound
  current := rfl
  housed := housed
  way := way
  file := ⟨opened, isOpen, Alike.refl opened⟩
  memory id _ := (Alike.refl opened).find? id

variable {session : Session} {current : Location}

theorem Faithful.touches (faithful : session.Faithful path current) {written : Catalog}
    {wrote : Except Failure Unit} (isPath : written.path = path)
    (ran : written.persist session.disk = (wrote, next)) :
    Disk.Touches [path.goal current, written.sibling.goal current]
      [written.sibling.goal current] (path.way current) session.disk next := by
  have touches := touches_persist faithful.sound (isPath ▸ faithful.housed.ends) ran
  rwa [isPath, faithful.current] at touches

/-- A catalog that could not be written leaves its file, and what the file opens as. -/
theorem Faithful.refused (faithful : session.Faithful path current) {written : Catalog}
    {failure : Failure} (isPath : written.path = path)
    (ran : written.persist session.disk = (.error failure, next)) :
    next.entryAt? (path.goal current) = session.disk.entryAt? (path.goal current) ∧
      openAt next path = openAt session.disk path := by
  have housed := faithful.housed
  have touches := faithful.touches isPath ran
  have kept := persist_refused faithful.sound
    (by rw [isPath, faithful.current]; exact housed) ran
  rw [isPath, faithful.current] at kept
  refine ⟨kept, openAt_congr ?_⟩
  rw [Disk.entry_of_name housed.ends faithful.way,
    Disk.entry_of_name housed.ends (touches.passable faithful.way), touches.current,
    faithful.current, kept]

/-- Every edit keeps a session faithful. -/
theorem Faithful.edit (faithful : session.Faithful path current) (edit : Edit) :
    (session.edit edit).Faithful path current := by
  unfold Session.edit
  generalize ran : edit.perform session.catalog session.disk = answer
  obtain ⟨outcome, after, next⟩ := answer
  cases Edit.becomes faithful.fit.sorted ran with
  | unknown missing none_ =>
    have target : edit.target? session.catalog = none := by simp [Edit.target?, none_]
    simp only [target]
    exact faithful
  | @idle record before given found same =>
    have target := Edit.target?_idle given found same
    rw [← Edit.subject_record? given] at found
    have alike := alike_put faithful.fit.sorted found same
    simp only [target]
    refine ⟨faithful.isPath, faithful.fit.put (Edit.storable_record? faithful.fit given),
      faithful.sound, faithful.current, faithful.housed, faithful.way, faithful.file, ?_⟩
    intro id free
    exact Record.rel_trans (faithful.memory id free) (alike.symm.find? id)
  | @written record next given target persisted =>
    have fit := faithful.fit.put (Edit.storable_record? faithful.fit given)
    have isPath : (session.catalog.put record).path = path := faithful.isPath
    have touches := faithful.touches isPath persisted
    have stored := openAt_persisted faithful.sound fit
      (faithful.isPath ▸ faithful.housed.written) persisted
    simp only [target]
    refine ⟨faithful.isPath, fit, touches.sound, touches.current.trans faithful.current,
      faithful.housed, touches.passable faithful.way, ⟨_, ?_, Alike.refl _⟩,
      fun id _ => (Alike.refl _).find? id⟩
    rw [← isPath]
    exact stored
  | @refused record failure next given target persisted =>
    have isPath : (session.catalog.put record).path = path := faithful.isPath
    have touches := faithful.touches isPath persisted
    obtain ⟨stored, opens, alike⟩ := faithful.file
    simp only [target]
    refine ⟨faithful.isPath, faithful.fit.put (Edit.storable_record? faithful.fit given),
      touches.sound, touches.current.trans faithful.current, faithful.housed,
      touches.passable faithful.way,
      ⟨stored, (faithful.refused isPath persisted).2.trans opens, alike⟩,
      fun id free => ?_⟩
    have different : record.id ≠ id := by
      intro same
      rw [Edit.subject_record? given] at same
      exact free (same ▸ List.mem_cons_self)
    rw [find?_put_other _ different]
    exact faithful.memory id fun earlier => free (List.mem_cons_of_mem _ earlier)

/-- Every sequence of edits keeps a session faithful. -/
theorem Faithful.run (faithful : session.Faithful path current) (edits : List Edit) :
    (edits.foldl Session.edit session).Faithful path current := by
  induction edits generalizing session with
  | nil => exact faithful
  | cons first rest inductionHypothesis => exact inductionHypothesis (faithful.edit first)

end Session

/-- The catalog file holds a record under its id. -/
def Durable (disk : Disk) (path : Path) (record : Record) : Prop :=
  ∃ stored held, openAt disk path = .ok stored ∧ stored.find? record.id = some held ∧
    held.Same record

theorem durable_iff {stored saved : Catalog} (opens : openAt disk path = .ok stored)
    (alike : stored.Alike saved) :
    Durable disk path record ↔ ∃ held, saved.find? record.id = some held ∧ held.Same record := by
  have related := alike.find? record.id
  constructor
  · rintro ⟨other, held, opensOther, found, same⟩
    rw [← Except.ok.inj (opens.symm.trans opensOther)] at found
    rw [found] at related
    cases savedHere : saved.find? record.id with
    | none => rw [savedHere] at related; cases related
    | some last =>
      rw [savedHere] at related
      cases related with
      | some both => exact ⟨last, rfl, both.symm.trans same⟩
  · rintro ⟨held, found, same⟩
    rw [found] at related
    cases storedHere : stored.find? record.id with
    | none => rw [storedHere] at related; cases related
    | some last =>
      rw [storedHere] at related
      cases related with
      | some both => exact ⟨stored, last, opens, storedHere, both.trans same⟩

/-- An edit that asks for the record in memory is answered, and nothing is written. -/
theorem Edit.perform_held {edit : Edit} (sorted : catalog.Sorted)
    (given : edit.record? catalog = some record)
    (held : catalog.find? edit.subject = some record) (disk : Disk) :
    edit.perform catalog disk = (.ok record, catalog, disk) := by
  have target := target?_idle given held (Record.Same.refl record)
  generalize ran : edit.perform catalog disk = answer
  obtain ⟨outcome, after, next⟩ := answer
  cases Edit.becomes sorted ran with
  | unknown _ none_ => exact absurd (given.symm.trans none_) (by simp)
  | idle givenHere _ _ =>
    have same := Option.some.inj (givenHere.symm.trans given)
    rw [same, put_of_find? sorted held]
  | written _ targetHere _ => exact absurd (target.symm.trans targetHere) (by simp)
  | refused _ targetHere _ => exact absurd (target.symm.trans targetHere) (by simp)

/-- What the file and the memory hold after an edit behind any sequence of edits, any writes of
which may have failed.  An edit that fails leaves the file; unless its id is unknown, its record
is in memory all the same, and an edit that asks for that record again is answered without a
write.  The record of an edit that is answered is durable exactly if the edit writes or the
record was in memory at the last write; so it is durable when no edit of its id has failed since. -/
theorem edit_durable (sound : start.Sound) (housed : Housed path start.current)
    (way : start.Passable path) (isOpen : openAt start path = .ok opened) (edits : List Edit)
    (edit : Edit) {session : Session}
    (reached : edits.foldl Session.edit (.opening opened start) = session)
    (ran : edit.perform session.catalog session.disk = (outcome, after, next)) :
    (∀ failure, outcome = .error failure →
      next.entryAt? (path.goal start.current) = session.disk.entryAt? (path.goal start.current) ∧
      (edit.record? session.catalog = none ∧ after = session.catalog ∨
        ∃ record, edit.record? session.catalog = some record ∧
          after = session.catalog.put record ∧
          ∀ again : Edit, again.subject = edit.subject → again.record? after = some record →
            ∀ later, again.perform after later = (.ok record, after, later))) ∧
    (∀ record, outcome = .ok record →
      (Durable next path record ↔ (edit.target? session.catalog).isSome = true ∨
        ∃ held, session.saved.find? edit.subject = some held ∧ held.Same record) ∧
      (edit.subject ∉ session.pending → Durable next path record)) := by
  have faithful := (Session.faithful_opening sound housed way isOpen).run edits
  rw [reached] at faithful
  obtain ⟨stored, opens, alike⟩ := faithful.file
  constructor
  · intro failure failed
    cases Edit.becomes faithful.fit.sorted ran with
    | unknown missing none_ => exact ⟨rfl, Or.inl ⟨none_, rfl⟩⟩
    | idle => exact absurd failed (by simp)
    | written => exact absurd failed (by simp)
    | @refused record failure next given target persisted =>
      have isPath : (session.catalog.put record).path = path := faithful.isPath
      refine ⟨(faithful.refused isPath persisted).1, Or.inr ⟨record, given, rfl, ?_⟩⟩
      intro again sameSubject asked later
      refine Edit.perform_held (sorted_put faithful.fit.sorted) asked ?_ later
      rw [sameSubject, ← Edit.subject_record? given]
      exact find?_put_same session.catalog record
  · intro answer answered
    cases Edit.becomes faithful.fit.sorted ran with
    | unknown => exact absurd answered (by simp)
    | refused => exact absurd answered (by simp)
    | @idle record before given found same =>
      rw [← Except.ok.inj answered]
      have target := Edit.target?_idle given found same
      have subject := Edit.subject_record? given
      rw [durable_iff opens alike, subject, target]
      refine ⟨by simp, fun free => ?_⟩
      have related := faithful.memory _ free
      rw [found] at related
      cases savedHere : session.saved.find? edit.subject with
      | none => rw [savedHere] at related; cases related
      | some held =>
        rw [savedHere] at related
        cases related with
        | some both => exact ⟨held, rfl, both.trans same.symm⟩
    | @written record next given target persisted =>
      rw [← Except.ok.inj answered]
      have fit := faithful.fit.put (Edit.storable_record? faithful.fit given)
      have isOpen := openAt_persisted faithful.sound fit
        (faithful.isPath ▸ faithful.housed.written) persisted
      have durable : Durable next path record :=
        ⟨_, record, faithful.isPath ▸ isOpen, find?_put_same session.catalog record,
          Record.Same.refl record⟩
      exact ⟨⟨fun _ => Or.inl (by rw [target]; rfl), fun _ => durable⟩, fun _ => durable⟩

/-! ## A write that fails -/

/-- The path of a catalog file. -/
def samplePath : Path := .ofText "build/eo-foreign.json"

/-- A disk that runs out of space once, after a catalog was written. -/
def sampleDisk : Disk := { Disk.empty ["work"] with outages := [false, false, true] }

/-- A catalog that holds one record, and a second one that it could not write. -/
def sampleSession : Session :=
  [Edit.add "a", Edit.add "b"].foldl Session.edit (.opening ⟨samplePath, []⟩ sampleDisk)

theorem sampleDisk_facts :
    sampleDisk.directoryAt sampleDisk.current = true ∧
    (∀ item ∈ sampleDisk.entries, sampleDisk.directoryAt item.1.dropLast = true) ∧
    samplePath.IsText ∧ samplePath.endsAtDirectory = false ∧
    (∀ passed ∈ samplePath.left sampleDisk.current, sampleDisk.directoryAt passed = true) ∧
    samplePath.goal sampleDisk.current ∉ samplePath.above sampleDisk.current ∧
    sampleDisk.exists? samplePath = false := by
  decide +kernel

theorem sampleSession_facts :
    sampleSession.catalog.records = [.ofId "a", .ofId "b"] ∧
    sampleSession.disk.readText samplePath = .ok "[\n  \x7b\n    \"id\": \"a\"\n  \x7d\n]" ∧
    (Edit.add "b").record? sampleSession.catalog = some (.ofId "b") ∧
    (Edit.add "b").target? sampleSession.catalog = none ∧
    sampleSession.catalog.find? "b" = some (.ofId "b") ∧
    sampleSession.saved.find? "b" = none := by
  decide +kernel

theorem sampleDisk_sound : sampleDisk.Sound :=
  Disk.sound_of_entries sampleDisk_facts.1 sampleDisk_facts.2.1

theorem samplePath_housed : Housed samplePath sampleDisk.current := by
  obtain ⟨_, _, written, ends, _, apart, _⟩ := sampleDisk_facts
  exact ⟨written, Path.endsInName_iff.2 ends, apart⟩

theorem sampleDisk_way : sampleDisk.Passable samplePath := sampleDisk_facts.2.2.2.2.1

theorem sampleDisk_open : openAt sampleDisk samplePath = .ok ⟨samplePath, []⟩ :=
  openAt_missing sampleDisk_facts.2.2.2.2.2.2

/-- The record that could not be written is answered when it is added again, and is not in the
file. -/
theorem sample_not_durable :
    sampleDisk.Sound ∧ Housed samplePath sampleDisk.current ∧ sampleDisk.Passable samplePath ∧
    openAt sampleDisk samplePath = .ok ⟨samplePath, []⟩ ∧
    (Edit.add "b").perform sampleSession.catalog sampleSession.disk =
      (.ok (.ofId "b"), sampleSession.catalog, sampleSession.disk) ∧
    ¬Durable sampleSession.disk samplePath (.ofId "b") := by
  obtain ⟨_, _, given, target, held, unsaved⟩ := sampleSession_facts
  have faithful := (Session.faithful_opening sampleDisk_sound samplePath_housed sampleDisk_way
    sampleDisk_open).run [Edit.add "a", Edit.add "b"]
  have ran := Edit.perform_held faithful.fit.sorted given held sampleSession.disk
  have law := (edit_durable sampleDisk_sound samplePath_housed sampleDisk_way sampleDisk_open
    [Edit.add "a", Edit.add "b"] (.add "b") rfl ran).2 (.ofId "b") rfl
  refine ⟨sampleDisk_sound, samplePath_housed, sampleDisk_way, sampleDisk_open, ran, ?_⟩
  intro durable
  rcases law.1.1 durable with wrote | ⟨record, found, _⟩
  · have idle : ((Edit.add "b").target? sampleSession.catalog).isSome = true := wrote
    rw [target] at idle
    exact absurd idle (by simp)
  · have saved : sampleSession.saved.find? "b" = some record := found
    rw [unsaved] at saved
    exact absurd saved (by simp)

/-- An add that fails changes the records in memory, and the same add is answered afterwards
although the file never holds its record. -/
theorem failed_add_lost :
    let before := (Session.opening ⟨samplePath, []⟩ sampleDisk).edit (.add "a")
    let failing := (Edit.add "b").perform before.catalog before.disk
    let again := (Edit.add "b").perform failing.2.1 failing.2.2
    before.catalog.find? "b" = none ∧ failing.1.toOption = none ∧
      failing.2.1.find? "b" = some (.ofId "b") ∧ again.1.toOption = some (.ofId "b") ∧
      again.2.2.readText samplePath = .ok "[\n  \x7b\n    \"id\": \"a\"\n  \x7d\n]" := by
  decide +kernel

end EoAssembly.Catalog
