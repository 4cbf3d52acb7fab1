import EoAssembly.Proofs.Catalog.Codec
import EoAssembly.Proofs.Catalog.Update
import EoAssembly.Proofs.Disk.Granted

/-!
Contract: what a catalog file holds, whether or not it could be written.

The file changes in one step: it either holds the records that were to be written
or what it held before.  Opening it gives the records that it was written with,
unless one of them counts more than a machine word holds.

Owns the frame of `persist` for any outcome, what adding and changing records does
when persisting fails, and opening what was written.
-/

namespace EoAssembly

namespace Catalog

open Disk (Touches)

variable {catalog after : Catalog} {disk next : Disk} {record : Record} {id : String}

/-! ## Writing the catalog file -/

/-- Where persisting a catalog fails, its sibling is touched at most. -/
theorem persist_failed (sound : disk.Sound) {failure : Failure}
    (ran : catalog.persist disk = (.error failure, next)) :
    Touches [catalog.sibling.goal disk.current] [] (Path.wayFrom disk.current catalog.path.enclosing)
      disk next := by
  have prepares : ∀ {outcome prepared}, disk.createParent catalog.path = (outcome, prepared) →
      Touches [catalog.sibling.goal disk.current] []
        (Path.wayFrom disk.current catalog.path.enclosing) disk prepared := fun created =>
    (Disk.touches_createParent sound created).mono (by simp) (by simp) (fun _ => id)
  cases persist_iff.1 ran with
  | unprepared created => exact prepares created
  | unwritten created wrote =>
    have first := prepares created
    have second := Disk.touches_writeText first.sound wrote
    rw [first.current] at second
    exact first.trans (second.mono (fun _ => id) (by simp) (by simp))
  | unmoved created wrote moved =>
    have first := prepares created
    have second := Disk.touches_writeText first.sound wrote
    rw [first.current] at second
    have both := first.trans (second.mono (fun _ => id) (by simp) (by simp))
    rw [Disk.replace_failed moved]
    exact both.trans ((Disk.touches_takeOutage both.sound).mono (by simp) (by simp) (by simp))

/-- A persisted catalog touches its file and the sibling at most, wherever it is. -/
theorem persist_any (sound : disk.Sound) {outcome : Except Failure Unit}
    (ran : catalog.persist disk = (outcome, next)) :
    Touches [catalog.path.goal disk.current, catalog.sibling.goal disk.current]
      [catalog.sibling.goal disk.current] (Path.wayFrom disk.current catalog.path.enclosing)
      disk next := by
  cases outcome with
  | error failure => exact (persist_failed sound ran).mono (by simp) (by simp) (fun _ => id)
  | ok value => exact (persist_ok sound ran).2

/-- Persisting a catalog touches the catalog file, its sibling and their way at most. -/
theorem touches_persist (sound : disk.Sound) (ends : catalog.path.EndsInName)
    {outcome : Except Failure Unit} (ran : catalog.persist disk = (outcome, next)) :
    Touches [catalog.path.goal disk.current, catalog.sibling.goal disk.current]
      [catalog.sibling.goal disk.current] (catalog.path.way disk.current) disk next :=
  (persist_any sound ran).mono (fun _ => id) (fun _ => id) (ends.way_of_enclosing _)

/-- A catalog file that was written holds the records, and its sibling is gone. -/
theorem persist_stands (sound : disk.Sound)
    (apart : catalog.sibling.goal disk.current ≠ catalog.path.goal disk.current)
    (ran : catalog.persist disk = (.ok (), next)) :
    next.entryAt? (catalog.path.goal disk.current) = some (.file (.text catalog.render)) ∧
      next.entryAt? (catalog.sibling.goal disk.current) = none := by
  cases persist_iff.1 ran with
  | replaced created wrote moved =>
    have first := Disk.touches_createParent sound created
    obtain ⟨_, touches, stands⟩ := Disk.writeText_ok first.sound wrote
    have current := touches.current.trans first.current
    obtain ⟨_, _, content, read, placed⟩ := Disk.replace_ok touches.sound moved
    have gone := Disk.replace_gone (by rw [current]; exact apart) moved
    rw [current] at read placed gone
    rw [first.current, read] at stands
    rw [placed, Option.some.inj stands]
    exact ⟨rfl, gone⟩

/-- A catalog file holds the records that were to be written, or what it held before. -/
theorem persist_file (sound : disk.Sound)
    (apart : catalog.sibling.goal disk.current ≠ catalog.path.goal disk.current)
    {outcome : Except Failure Unit} (ran : catalog.persist disk = (outcome, next))
    {content : FileContent}
    (stands : next.entryAt? (catalog.path.goal disk.current) = some (.file content)) :
    content = .text catalog.render ∨
      disk.entryAt? (catalog.path.goal disk.current) = some (.file content) := by
  cases outcome with
  | ok value =>
    rw [(persist_stands sound apart ran).1] at stands
    exact Or.inl (Entry.file.inj (Option.some.inj stands)).symm
  | error failure =>
    have touches := persist_failed sound ran
    exact Or.inr (touches.file_before (by simpa using Ne.symm apart) (by simp) stands)

/-- Names that are allowed are in the places of a catalog file that was written. -/
theorem persist_allowed (sound : disk.Sound) (ran : catalog.persist disk = (.ok (), next)) :
    (catalog.path.goal disk.current).all Disk.nameAllowed = true ∧
      (catalog.sibling.goal disk.current).all Disk.nameAllowed = true := by
  cases persist_iff.1 ran with
  | replaced created wrote moved =>
    have first := Disk.touches_createParent sound created
    obtain ⟨_, touches, _⟩ := Disk.writeText_ok first.sound wrote
    obtain ⟨_, writableSibling, _⟩ := Disk.writeText_eq_ok wrote
    obtain ⟨_, _, _, _, _, writable, _⟩ := Disk.replace_eq_ok moved
    obtain ⟨sibling, allowedSibling⟩ := Disk.writableAt_allowed writableSibling
    obtain ⟨goal, allowed⟩ := Disk.writableAt_allowed writable
    rw [Disk.takeOutage_current, first.current] at sibling
    rw [Disk.takeOutage_current, touches.current, first.current] at goal
    exact ⟨goal ▸ allowed, sibling ▸ allowedSibling⟩

/-- A catalog file that is received, as its sibling is, is written. -/
theorem persist_receives (receives : disk.Receives catalog.path)
    (sibling : disk.Receives catalog.sibling) (sound : disk.Sound) (calm : disk.Calm)
    (beside : catalog.sibling.components.dropLast = catalog.path.components.dropLast) :
    ∃ next, catalog.persist disk = (.ok (), next) ∧ next.Calm := by
  obtain ⟨prepared, created, still⟩ := receives.createParent calm
  have first := Disk.touches_createParent sound created
  have writable := Disk.writableAt_created sound receives.ends created receives.ends rfl
    receives.apart receives.goal receives.allowed
  have notAbove : catalog.sibling.goal disk.current ∉ catalog.path.above disk.current := by
    have free := sibling.apart
    unfold Path.above at free ⊢
    rw [← beside]
    exact free
  have writableSibling := Disk.writableAt_created sound receives.ends created sibling.ends beside
    notAbove sibling.goal sibling.allowed
  have wrote : prepared.writeText catalog.sibling catalog.render = _ :=
    Disk.writeText_receives still writableSibling
  obtain ⟨passable, touches, stands⟩ := Disk.writeText_ok first.sound wrote
  have noDirectory := (Disk.writableAt_ok writableSibling).2.2.2.2
  have writableNext := Disk.writableAt_put (Disk.notRoot_of_writable noDirectory) writable
    (show Entry.file (.text catalog.render) ≠ .directory by simp) noDirectory
  have isThere := Disk.entry_of_name sibling.ends (touches.passable passable)
  rw [touches.current, stands] at isThere
  have stillWritten : (prepared.put (catalog.sibling.goal disk.current)
      (.file (.text catalog.render))).Calm := still
  obtain ⟨next, moved, calmLast⟩ := Disk.replace_receives stillWritten isThere writableNext
  exact ⟨next, persist_iff.2 (.replaced created wrote moved), calmLast⟩

/-! ## Changes -/

/-- Adding a record leaves the catalog alone or puts a fresh one, whatever becomes of the
catalog file. -/
theorem add_any {outcome : Except Failure Record}
    (ran : catalog.add id disk = (outcome, after, next)) :
    (∃ found, catalog.find? id = some found ∧ outcome = .ok found ∧ after = catalog ∧ next = disk) ∨
    (catalog.find? id = none ∧ after = catalog.put (.ofId id) ∧ ∃ written,
      after.persist disk = (written, next) ∧ outcome = written.map fun _ => .ofId id) := by
  unfold add at ran
  split at ran
  · next found known =>
    obtain ⟨rfl, rest⟩ := Prod.mk.inj ran
    obtain ⟨rfl, rfl⟩ := Prod.mk.inj rest
    exact Or.inl ⟨found, known, rfl, rfl, rfl⟩
  · next missing =>
    refine Or.inr ⟨missing, ?_⟩
    simp only at ran
    split at ran
    · next written persisted =>
      obtain ⟨rfl, rest⟩ := Prod.mk.inj ran
      obtain ⟨rfl, rfl⟩ := Prod.mk.inj rest
      exact ⟨rfl, _, persisted, rfl⟩
    · next failure written persisted =>
      obtain ⟨rfl, rest⟩ := Prod.mk.inj ran
      obtain ⟨rfl, rfl⟩ := Prod.mk.inj rest
      exact ⟨rfl, _, persisted, rfl⟩

/-- Changing a record of an object that is there puts the changed one; the catalog file is
written unless the record is the same as before. -/
theorem update_any {change : Record → Record} {before : Record}
    (found : catalog.find? id = some before) {outcome : Except Failure Record}
    (ran : catalog.update id change disk = (outcome, after, next)) :
    after = catalog.put { change before with id := id } ∧
      ((Record.same { change before with id := id } before = true ∧ next = disk ∧
          outcome = .ok { change before with id := id }) ∨
        Record.same { change before with id := id } before = false ∧
          ∃ written, after.persist disk = (written, next) ∧
            outcome = written.map fun _ => { change before with id := id }) := by
  have sameId := id_of_find? found
  unfold update at ran
  rw [found] at ran
  simp only [sameId] at ran
  split at ran
  · next same =>
    obtain ⟨rfl, rest⟩ := Prod.mk.inj ran
    obtain ⟨rfl, rfl⟩ := Prod.mk.inj rest
    exact ⟨rfl, Or.inl ⟨same, rfl, rfl⟩⟩
  · next different =>
    have different := Bool.eq_false_iff.2 different
    split at ran
    · next written persisted =>
      obtain ⟨rfl, rest⟩ := Prod.mk.inj ran
      obtain ⟨rfl, rfl⟩ := Prod.mk.inj rest
      exact ⟨rfl, Or.inr ⟨different, _, persisted, rfl⟩⟩
    · next failure written persisted =>
      obtain ⟨rfl, rest⟩ := Prod.mk.inj ran
      obtain ⟨rfl, rfl⟩ := Prod.mk.inj rest
      exact ⟨rfl, Or.inr ⟨different, _, persisted, rfl⟩⟩

/-- An object that is not there can't be changed, and nothing happens. -/
theorem update_missing {change : Record → Record} (missing : catalog.find? id = none) :
    catalog.update id change disk = (.error (.notFound id), catalog, disk) := by
  unfold update
  rw [missing]

/-! ## Opening -/

/-- What was written opens as the records that it was written with, unless one of them
counts too much. -/
theorem openAt_written {path : Path} (sorted : catalog.Sorted)
    (textual : ∀ record ∈ catalog.records, record.Textual)
    (stands : disk.entry? path = some (.file (.text catalog.render))) :
    openAt disk path =
      if ∀ record ∈ catalog.records, record.Countable then .ok ⟨path, catalog.records⟩
      else .error (.malformed .json "not a list of records") := by
  unfold openAt
  simp only [Disk.exists?_iff.2 ⟨_, stands⟩, if_true, Disk.readText_eq_ok.2 stands]
  unfold render
  rw [Record.allOfText?_renderAll textual]
  by_cases countable : ∀ record ∈ catalog.records, record.Countable
  · rw [if_pos countable, if_pos countable]
    simp only [recordsOf, Ordered.ofList_of_ascending sorted]
  · rw [if_neg countable, if_neg countable]

/-- A catalog in its file opens as it is. -/
theorem openAt_stands (sorted : catalog.Sorted)
    (textual : ∀ record ∈ catalog.records, record.Textual)
    (countable : ∀ record ∈ catalog.records, record.Countable)
    (stands : disk.entry? catalog.path = some (.file (.text catalog.render))) :
    openAt disk catalog.path = .ok catalog := by
  rw [openAt_written sorted textual stands, if_pos countable]

end Catalog

end EoAssembly
