import EoAssembly.Proofs.Build.Settled
import EoAssembly.Proofs.Build.Shelves

/-!
Contract: how far a build is with every object, and what its catalog, its files
and its journal say about it.

Every object has marks: whether it is known, has a source, a document, an
optimized document that is written or recorded, and whether its references are
known.  The marks determine the fields of its record, the files at its places and
whether the store was asked for it.

Owns `Marks`, `Recorded`, `Filed`, `Progress`, and the operations that set marks.

Does not own: the order of the stages.
-/

namespace EoAssembly.Build

open ObjectName (Placeable)

/-- What is done for an object. -/
@[ext]
structure Marks where
  known : Prop
  sourced : Prop
  parsed : Prop
  /-- The optimized document is written. -/
  made : Prop
  /-- The optimized document is recorded. -/
  optimized : Prop
  discovered : Prop

/-- What is done for every object. -/
abbrev Front := String → Marks

/-- The marks of objects after a change for some of them. -/
def Front.mark (front : Front) (ids : List String) (change : Marks → Marks) : Front :=
  fun id => if id ∈ ids then change (front id) else front id

theorem Front.mark_of_mem {front : Front} {ids : List String} {change : Marks → Marks} {id : String}
    (member : id ∈ ids) : front.mark ids change id = change (front id) :=
  if_pos member

theorem Front.mark_of_not_mem {front : Front} {ids : List String} {change : Marks → Marks}
    {id : String} (other : id ∉ ids) : front.mark ids change id = front id :=
  if_neg other

/-- Objects may be marked one after the other. -/
theorem Front.mark_cons {front : Front} {first : String} {rest : List String}
    (change : Marks → Marks) (twice : ∀ marks, change (change marks) = change marks) :
    (front.mark [first] change).mark rest change = front.mark (first :: rest) change := by
  funext id
  by_cases here : id = first
  · have once : front.mark [first] change id = change (front id) :=
      mark_of_mem (List.mem_singleton.2 here)
    have member : id ∈ first :: rest := List.mem_cons.2 (Or.inl here)
    rw [mark_of_mem member]
    by_cases later : id ∈ rest
    · rw [mark_of_mem later, once, twice]
    · rw [mark_of_not_mem later, once]
  · have untouched : front.mark [first] change id = front id :=
      mark_of_not_mem (by simpa using here)
    by_cases later : id ∈ rest
    · rw [mark_of_mem later, untouched, mark_of_mem (List.mem_cons_of_mem first later)]
    · rw [mark_of_not_mem later, untouched, mark_of_not_mem (by simp [here, later])]

theorem Front.mark_nil {front : Front} {change : Marks → Marks} : front.mark [] change = front := by
  funext id
  exact mark_of_not_mem (by simp)

/-- A mark that a change leaves alone. -/
theorem Front.mark_keeps {front : Front} {ids : List String} {id : String} (change : Marks → Marks)
    (mark : Marks → Prop) (keeps : ∀ marks, mark (change marks) ↔ mark marks) :
    mark (front.mark ids change id) ↔ mark (front id) := by
  unfold Front.mark
  split
  · exact keeps (front id)
  · rfl

/-- A mark that a change sets. -/
theorem Front.mark_gains {front : Front} {ids : List String} {id : String} (change : Marks → Marks)
    (mark : Marks → Prop) (gains : ∀ marks, mark (change marks)) :
    mark (front.mark ids change id) ↔ mark (front id) ∨ id ∈ ids := by
  unfold Front.mark
  split
  · next member => exact iff_of_true (gains (front id)) (Or.inr member)
  · next other => exact (or_iff_left other).symm

theorem Front.mark_eq {front other : Front} {ids : List String} {change : Marks → Marks}
    (changed : ∀ id ∈ ids, change (front id) = other id)
    (kept : ∀ id, id ∉ ids → front id = other id) : front.mark ids change = other := by
  funext id
  unfold Front.mark
  split
  · next member => exact changed id member
  · next free => exact kept id free

/-- The marks of one object changed, and those of no other. -/
theorem Front.mark_single (front : Front) (id : String) (change : Marks → Marks) (twin : String) :
    (twin = id ∧ front.mark [id] change twin = change (front twin)) ∨
      (twin ≠ id ∧ front.mark [id] change twin = front twin) := by
  by_cases same : twin = id
  · exact Or.inl ⟨same, mark_of_mem (List.mem_singleton.2 same)⟩
  · exact Or.inr ⟨same, mark_of_not_mem (by simpa using same)⟩

variable {settings : Settings} {remote : Remote} {start : Workspace} {front : Front}
  {standing : Shelf → String → Prop} {before after : Workspace} {id : String}

/-! ## Records -/

/-- The fields of a record say what the marks of its object say. -/
structure Describes (settings : Settings) (start : Disk) (id : String) (marks : Marks)
    (record : Record) : Prop where
  ofProject : ∀ file, fileOf? settings start id = some file →
    record.source = some (settings.sources.join file) ∧ record.pulled = false
  ofStore : fileOf? settings start id = none → marks.sourced →
    record.source = some (pulledPlace settings.target id) ∧ record.pulled = true
  unsourced : ¬marks.sourced → record.source = none ∧ record.pulled = false
  parsed : marks.parsed → record.xmir = some (parsedPlace settings.target id)
  unparsed : ¬marks.parsed → record.xmir = none
  optimized : marks.optimized → record.optimized = some (optimizedPlace settings.target id)
  unoptimized : ¬marks.optimized → record.optimized = none
  discovered : marks.discovered ↔ record.discovered.isSome = true

namespace Describes

variable {disk : Disk} {marks : Marks} {record : Record}

theorem source_iff (describes : Describes settings disk id marks record) :
    record.source.isSome = true ↔ marks.sourced := by
  constructor
  · intro some_
    by_cases sourced : marks.sourced
    · exact sourced
    · rw [(describes.unsourced sourced).1] at some_
      exact absurd some_ (by simp)
  · intro sourced
    cases file : fileOf? settings disk id with
    | some local_ => rw [(describes.ofProject local_ file).1]; rfl
    | none => rw [(describes.ofStore file sourced).1]; rfl

theorem xmir_iff (describes : Describes settings disk id marks record) :
    record.xmir.isSome = true ↔ marks.parsed := by
  by_cases parsed : marks.parsed
  · rw [describes.parsed parsed]
    exact iff_of_true rfl parsed
  · rw [describes.unparsed parsed]
    exact iff_of_false (by simp) parsed

theorem optimized_iff (describes : Describes settings disk id marks record) :
    record.optimized.isSome = true ↔ marks.optimized := by
  by_cases optimized : marks.optimized
  · rw [describes.optimized optimized]
    exact iff_of_true rfl optimized
  · rw [describes.unoptimized optimized]
    exact iff_of_false (by simp) optimized

end Describes

/-- What is done for an object is done for one that is known. -/
def Marks.Known (marks : Marks) : Prop :=
  (marks.sourced → marks.known) ∧ (marks.parsed → marks.known) ∧ (marks.made → marks.known) ∧
    (marks.optimized → marks.known) ∧ (marks.discovered → marks.known)

/-- A catalog that says what the marks say. -/
structure Recorded (settings : Settings) (start : Disk) (front : Front) (catalog : Catalog) :
    Prop where
  sorted : catalog.Sorted
  path : catalog.path = catalogPath settings.target
  known : ∀ id, (∃ record, catalog.find? id = some record) ↔ (front id).known
  within : ∀ id, (front id).Known
  describes : ∀ id record, catalog.find? id = some record →
    Describes settings start id (front id) record

/-- A record that is put changes the marks of its object only. -/
theorem Recorded.put {catalog : Catalog} {record : Record} {change : Marks → Marks}
    (recorded : Recorded settings start.disk front catalog) (known : (change (front record.id)).known)
    (describes : Describes settings start.disk record.id (change (front record.id)) record) :
    Recorded settings start.disk (front.mark [record.id] change) (catalog.put record) where
  sorted := Catalog.sorted_put recorded.sorted
  path := recorded.path
  known id := by
    by_cases same : id = record.id
    · rw [same, Front.mark_of_mem (List.mem_singleton_self _), Catalog.find?_put_same]
      exact ⟨fun _ => known, fun _ => ⟨record, rfl⟩⟩
    · rw [Front.mark_of_not_mem (by simpa using same),
        Catalog.find?_put_other _ (Ne.symm same)]
      exact recorded.known id
  within id := by
    by_cases same : id = record.id
    · rw [same, Front.mark_of_mem (List.mem_singleton_self _)]
      exact ⟨fun _ => known, fun _ => known, fun _ => known, fun _ => known, fun _ => known⟩
    · rw [Front.mark_of_not_mem (by simpa using same)]
      exact recorded.within id
  describes id other found := by
    by_cases same : id = record.id
    · rw [same] at found ⊢
      rw [Catalog.find?_put_same] at found
      rw [Front.mark_of_mem (List.mem_singleton_self _), ← Option.some.inj found]
      exact describes
    · rw [Catalog.find?_put_other _ (Ne.symm same)] at found
      rw [Front.mark_of_not_mem (by simpa using same)]
      exact recorded.describes id other found

/-! ## Files -/

/-- What a file of an object on a shelf holds. -/
def Shelf.Holds (settings : Settings) (remote : Remote) (disk : Disk) (shelf : Shelf)
    (id text : String) : Prop :=
  match shelf with
  | .parsed => parsedText settings remote disk id = .ok text
  | .optimized => optimizedText settings remote disk id = .ok text
  | .pulled => sourceText settings remote disk id = .ok text
  | .logs => True
  | .sources => True

/-- Which files of an object stand. -/
def Marks.stands (marks : Marks) : Shelf → Prop
  | .parsed => marks.parsed
  | .optimized => marks.made
  | .pulled => marks.sourced
  | .logs => marks.sourced
  | .sources => False

/-- Which files stand. -/
def Front.stands (front : Front) (shelf : Shelf) (id : String) : Prop := (front id).stands shelf

/-- A change of marks adds files of some shelves. -/
theorem Front.stands_mark {change : Marks → Marks} {adds : Shelf → Prop}
    (sets : ∀ marks other, (change marks).stands other ↔ marks.stands other ∨ adds other)
    (other : Shelf) (twin : String) :
    Front.stands (front.mark [id] change) other twin ↔
      front.stands other twin ∨ adds other ∧ twin = id := by
  unfold Front.stands
  rcases front.mark_single id change twin with ⟨isId, changed⟩ | ⟨different, same⟩
  · rw [changed, sets]
    exact or_congr_right (and_iff_left isId).symm
  · rw [same]
    exact (or_iff_left fun wrong => different wrong.2).symm

/-- A change of marks that adds no file. -/
theorem Front.stands_same {ids : List String} {change : Marks → Marks}
    (keeps : ∀ marks other, (change marks).stands other ↔ marks.stands other) :
    Front.stands (front.mark ids change) = front.stands := by
  funext other twin
  unfold Front.stands Front.mark
  split
  · exact propext (keeps (front twin) other)
  · rfl

/-- The rows of the shelves hold what they should, where files stand. -/
structure Rows (settings : Settings) (remote : Remote) (start : Disk)
    (stands : Shelf → String → Prop) (content : Shelf → String → Option String) : Prop where
  holds : ∀ shelf id, OnShelf settings remote start shelf id → stands shelf id →
    ∃ text, content shelf id = some text ∧ shelf.Holds settings remote start id text
  empty : ∀ shelf id, ¬stands shelf id → content shelf id = none

/-- A disk that holds what it should, where files stand. -/
def Filed (settings : Settings) (remote : Remote) (start : Disk) (stands : Shelf → String → Prop)
    (disk : Disk) : Prop :=
  ∃ content, Shelved settings remote start [settings.target, settings.sources] content disk ∧
    Rows settings remote start stands content

/-! ## The journal -/

/-- The sources that were asked for, in order. -/
def sourcesAsked (journal : List Request) : List String :=
  journal.filterMap fun request =>
    match request with
    | .source name => some name
    | .document _ => none
    | .table => none

/-- The store was asked once for each object with a source that no file registers. -/
structure Asked (settings : Settings) (start : Workspace) (front : Front) (asked : List String)
    (journal : List Request) : Prop where
  journal : sourcesAsked journal = sourcesAsked start.journal ++ asked
  distinct : asked.Nodup
  sourced : ∀ id, id ∈ asked ↔ (front id).sourced ∧ id ∉ registeredIds settings start.disk

/-! ## Progress -/

/-- What the claims about a build rest on: its directories and the places of its objects
are apart, the target is written as it prints, the files of the project are below its
sources, sources are kept, and the store answers by the name alone and keeps no files. -/
structure Scene (settings : Settings) (remote : Remote) (start : Disk) : Prop where
  separate : Separate settings start.current
  apart : PlacesApart settings remote start
  written : settings.target.IsText
  reaches : start.Passable settings.sources
  named : ∀ file ∈ registeredFiles settings start,
    file.segments ≠ [] ∧ ∀ name ∈ file.segments, Path.Names name
  keeps : settings.overwrite = false
  store : ∀ name disk, remote.fetch name disk = ((remote.fetch name start).1, disk)

/-- A workspace that is as far with every object as the marks say. -/
structure Progress (settings : Settings) (remote : Remote) (start : Workspace) (front : Front)
    (asked : List String) (present : Workspace) : Prop where
  recorded : Recorded settings start.disk front present.foreign
  filed : Filed settings remote start.disk front.stands present.disk
  asked : Asked settings start front asked present.journal
  needed : ∀ id, (front id).known → IsNeeded settings remote start.disk id
  placeable : ∀ id, (front id).sourced → Placeable id
  readable : ∀ id, (front id).discovered → Readable settings remote start.disk id
  registered : ∀ id ∈ registeredIds settings start.disk, (front id).sourced

theorem noShelf_foreign (shelf : Shelf) : shelf.name? ≠ some Catalogs.foreignFile ∧
    shelf.name? ≠ some (Catalogs.foreignFile ++ ".tmp") := by
  cases shelf <;> decide

/-- A catalog that is persisted changes no file on a shelf. -/
theorem Filed.persist {catalog : Catalog} {disk next : Disk}
    (scene : Scene settings remote start.disk)
    (filed : Filed settings remote start.disk standing disk)
    (path : catalog.path = catalogPath settings.target)
    (ran : catalog.persist disk = (.ok (), next)) :
    Filed settings remote start.disk standing next := by
  obtain ⟨content, shelved, rows⟩ := filed
  exact ⟨content, (shelved.persist scene.separate scene.written path isName_foreign isName_sibling
    noShelf_foreign ran).1, rows⟩

/-- A change of a record changes the marks of its object, and no file on a shelf. -/
theorem update_effect {change : Record → Record} {record : Record} {marks : Marks → Marks}
    (scene : Scene settings remote start.disk)
    (recorded : Recorded settings start.disk front before.foreign)
    (filed : Filed settings remote start.disk standing before.disk)
    (known : (front id).known → (marks (front id)).known)
    (describes : ∀ old, Describes settings start.disk id (front id) old →
      Describes settings start.disk id (marks (front id)) { change old with id := old.id })
    (ran : (Step.updateForeign id change).Yields before record after) :
    Recorded settings start.disk (front.mark [id] marks) after.foreign ∧
      Filed settings remote start.disk standing after.disk ∧ after.journal = before.journal ∧
      (front id).known := by
  obtain ⟨catalog, disk, updated, result⟩ := Step.yields_updateForeign.1 ran
  obtain ⟨old, found, changed, sameId, sameCatalog, persisted⟩ := Catalog.update_ok updated
  have wasKnown := (recorded.known id).1 ⟨old, found⟩
  have put : Recorded settings start.disk (front.mark [id] marks) catalog := by
    rw [sameCatalog, ← sameId]
    refine recorded.put ?_ ?_
    · rw [sameId]
      exact known wasKnown
    · rw [sameId, changed]
      exact describes old (recorded.describes id old found)
  rw [result]
  refine ⟨put, ?_, rfl, wasKnown⟩
  rcases persisted with same | persisted
  · rw [same]
    exact filed
  · exact filed.persist scene put.path persisted

/-! ## Operations -/

theorem Asked.mark {marks : Marks → Marks} {asked : List String} {journal : List Request}
    (here : Asked settings start front asked journal)
    (same : (marks (front id)).sourced ↔ (front id).sourced) :
    Asked settings start (front.mark [id] marks) asked journal where
  journal := here.journal
  distinct := here.distinct
  sourced twin := by
    rcases front.mark_single id marks twin with ⟨isId, changed⟩ | ⟨_, kept⟩
    · rw [changed, isId, same]
      exact here.sourced id
    · rw [kept]
      exact here.sourced twin

/-- A change of a record goes on with one object, once its files are there. -/
theorem Progress.update {change : Record → Record} {record : Record} {marks : Marks → Marks}
    {asked more : List String} {between : Workspace} (scene : Scene settings remote start.disk)
    (progress : Progress settings remote start front asked before)
    (foreign : between.foreign = before.foreign)
    (filed : Filed settings remote start.disk (Front.stands (front.mark [id] marks)) between.disk)
    (asks : Asked settings start (front.mark [id] marks) more between.journal)
    (known : (front id).known → (marks (front id)).known)
    (kept : (front id).sourced → (marks (front id)).sourced)
    (placeable : (marks (front id)).sourced → Placeable id)
    (readable : (marks (front id)).discovered → Readable settings remote start.disk id)
    (describes : ∀ old, Describes settings start.disk id (front id) old →
      Describes settings start.disk id (marks (front id)) { change old with id := old.id })
    (ran : (Step.updateForeign id change).Yields between record after) :
    Progress settings remote start (front.mark [id] marks) more after := by
  have recordedBetween := progress.recorded
  rw [← foreign] at recordedBetween
  obtain ⟨recorded, filedAfter, journal, wasKnown⟩ :=
    update_effect scene recordedBetween filed known describes ran
  rw [← journal] at asks
  refine ⟨recorded, filedAfter, asks, ?_, ?_, ?_, ?_⟩
  · intro twin knownTwin
    rcases front.mark_single id marks twin with ⟨isId, _⟩ | ⟨_, same⟩
    · rw [isId]
      exact progress.needed id wasKnown
    · rw [same] at knownTwin
      exact progress.needed twin knownTwin
  · intro twin sourced
    rcases front.mark_single id marks twin with ⟨isId, changed⟩ | ⟨_, same⟩
    · rw [changed, isId] at sourced
      rw [isId]
      exact placeable sourced
    · rw [same] at sourced
      exact progress.placeable twin sourced
  · intro twin discovered
    rcases front.mark_single id marks twin with ⟨isId, changed⟩ | ⟨_, same⟩
    · rw [changed, isId] at discovered
      rw [isId]
      exact readable discovered
    · rw [same] at discovered
      exact progress.readable twin discovered
  · intro twin registered
    have sourced := progress.registered twin registered
    rcases front.mark_single id marks twin with ⟨isId, changed⟩ | ⟨_, same⟩
    · rw [isId] at sourced
      rw [changed, isId]
      exact kept sourced
    · rw [same]
      exact sourced

/-- A file that is written at the place of an object stands there. -/
theorem Filed.write {text : String} {disk next : Disk} {more : Shelf → String → Prop}
    (shelf : Shelf) (scene : Scene settings remote start.disk)
    (filed : Filed settings remote start.disk standing disk)
    (on : OnShelf settings remote start.disk shelf id) (placeable : Placeable id)
    (holds : shelf.Holds settings remote start.disk id text)
    (sets : ∀ other twin, more other twin ↔ standing other twin ∨ (other = shelf ∧ twin = id))
    (ran : Document.writeBelow disk (shelf.file settings id) text = (.ok (), next)) :
    Filed settings remote start.disk more next := by
  obtain ⟨content, shelved, rows⟩ := filed
  refine ⟨_, (shelved.write scene.separate scene.apart on placeable ran).1, ?_, ?_⟩
  · intro other twin onOther there
    by_cases here : other = shelf ∧ twin = id
    · rw [here.1, here.2]
      exact ⟨text, if_pos ⟨rfl, rfl⟩, holds⟩
    · obtain ⟨old, row, holdsOld⟩ :=
        rows.holds other twin onOther (((sets other twin).1 there).resolve_right here)
      exact ⟨old, (if_neg here).trans row, holdsOld⟩
  · intro other twin missing
    have here : ¬(other = shelf ∧ twin = id) := fun same =>
      missing ((sets other twin).2 (Or.inr same))
    have before := rows.empty other twin fun there => missing ((sets other twin).2 (Or.inl there))
    exact (if_neg here).trans before

/-- A file that is written clear of the shelves leaves what stands. -/
theorem Filed.write_clear {path : Path} {text : String} {disk next : Disk}
    (filed : Filed settings remote start.disk standing disk)
    (clear : ∀ shelf : Shelf, path.Clear start.disk.current (shelf.directory settings))
    (ran : Document.writeBelow disk path text = (.ok (), next)) :
    Filed settings remote start.disk standing next := by
  obtain ⟨content, shelved, rows⟩ := filed
  exact ⟨content, shelved.write_clear clear ran, rows⟩

/-- What stands at the place of an object in the target. -/
theorem Filed.entry_file {name : String} {disk : Disk} (shelf : Shelf)
    (filed : Filed settings remote start.disk standing disk) (named : shelf.name? = some name)
    (on : OnShelf settings remote start.disk shelf id) (placeable : Placeable id)
    (there : standing shelf id) :
    ∃ text, disk.entry? (shelf.file settings id) = some (.file (.text text)) ∧
      shelf.Holds settings remote start.disk id text := by
  obtain ⟨content, shelved, rows⟩ := filed
  obtain ⟨text, row, holds⟩ := rows.holds shelf id on there
  refine ⟨text, ?_, holds⟩
  rw [shelved.entry_file named (by simp) on placeable, row]
  rfl

theorem Filed.not_exists? {disk : Disk} (shelf : Shelf)
    (filed : Filed settings remote start.disk standing disk)
    (on : OnShelf settings remote start.disk shelf id) (placeable : Placeable id)
    (missing : ¬standing shelf id) : disk.exists? (shelf.file settings id) = false := by
  obtain ⟨content, shelved, rows⟩ := filed
  exact shelved.not_exists? on placeable (rows.empty shelf id missing)

end EoAssembly.Build
