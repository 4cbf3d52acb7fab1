import EoAssembly.Proofs.Build.Invariant
import EoAssembly.Proofs.Build.References
import EoAssembly.Proofs.Catalog.Persist
import EoAssembly.Proofs.Disk.Tidy

/-!
Contract: builds list the files of the sources as long as these stay.

A build keeps its disk tidy, and on a tidy disk the files of the sources are listed by what
stands below them.

Owns that every operation of a build keeps a disk tidy, and that listings are the same where
the sources are.
-/

namespace EoAssembly

/-! ## Tidy disks -/

namespace Disk.Tidy

variable {disk next : Disk}

theorem persist {catalog : Catalog} {outcome : Except Failure Unit} (tidy : disk.Tidy)
    (ran : catalog.persist disk = (outcome, next)) : next.Tidy := by
  cases Catalog.persist_iff.1 ran with
  | unprepared created => exact tidy.createParent created
  | unwritten created wrote => exact (tidy.createParent created).writeText wrote
  | unmoved created wrote moved | replaced created wrote moved =>
    exact ((tidy.createParent created).writeText wrote).replace moved

theorem writeBelow {path : Path} {text : String} {outcome : Except Failure Unit} (tidy : disk.Tidy)
    (ran : Document.writeBelow disk path text = (outcome, next)) : next.Tidy := by
  cases Document.writeBelow_iff.1 ran with
  | unprepared created => exact tidy.createParent created
  | unwritten created wrote | written created wrote => exact (tidy.createParent created).writeText wrote

theorem add {catalog after : Catalog} {id : String} {outcome : Except Failure Record}
    (tidy : disk.Tidy) (ran : catalog.add id disk = (outcome, after, next)) : next.Tidy := by
  rcases Catalog.add_any ran with ⟨_, _, _, _, same⟩ | ⟨_, _, _, persisted, _⟩
  · rw [same]
    exact tidy
  · exact tidy.persist persisted

theorem update {catalog after : Catalog} {id : String} {change : Record → Record} {record : Record}
    (tidy : disk.Tidy) (ran : catalog.update id change disk = (.ok record, after, next)) :
    next.Tidy := by
  obtain ⟨_, _, _, _, _, same | persisted⟩ := Catalog.update_ok ran
  · rw [same]
    exact tidy
  · exact tidy.persist persisted

end Disk.Tidy

namespace Build

variable {settings : Settings} {remote : Remote} {disk : Disk}

/-- Builds with a store that keeps no files keep a disk tidy. -/
theorem tidy_invariant {store : String → Except Failure String}
    (function : remote.fetch = Remote.fetchOf store) :
    Invariant remote fun present => present.disk.Tidy where
  add id := by
    intro before record after tidy ran
    obtain ⟨_, _, ranAdd, result⟩ := Step.yields_addForeign.1 ran
    rw [result]
    exact tidy.add ranAdd
  update id change _ := by
    intro before record after tidy ran
    obtain ⟨_, _, ranUpdate, result⟩ := Step.yields_updateForeign.1 ran
    rw [result]
    exact tidy.update ranUpdate
  addExternal id := by
    intro before record after tidy ran
    obtain ⟨_, _, ranAdd, result⟩ := Step.yields_addExternal.1 ran
    rw [result]
    exact tidy.add ranAdd
  updateExternal id change := by
    intro before record after tidy ran
    obtain ⟨_, _, ranUpdate, result⟩ := Step.yields_updateExternal.1 ran
    rw [result]
    exact tidy.update ranUpdate
  write path text := by
    intro before value after tidy ran
    obtain ⟨_, written, result⟩ := Step.yields_write.1 ran
    rw [result]
    exact tidy.writeBelow written
  fetch name := by
    intro before value after tidy ran
    obtain ⟨disk, fetched, result⟩ := Step.yields_fetch.1 ran
    rw [function] at fetched
    rw [result, ← (Prod.mk.inj fetched).2]
    exact tidy
  parse name text := by
    intro before value after tidy ran
    obtain ⟨_, result⟩ := Step.yields_parse.1 ran
    rw [result]
    exact tidy
  table := by
    intro before value after tidy ran
    obtain ⟨_, _, result, _⟩ := Step.table_frame ran
    rw [result]
    exact tidy

/-! ## Listings of the sources -/

/-- The files of a directory are those of the walk below its location. -/
theorem filesIn_eq {directory : Path} (isDirectory : disk.isDirectory directory = true) :
    filesIn disk directory =
      (disk.filesBelow (directory.goal disk.current)).map fun file => ⟨file.1⟩ := by
  obtain ⟨some_, passable, _⟩ := Disk.entry_eq_some (beq_iff_eq.1 isDirectory)
  unfold filesIn
  rw [Disk.resolve?_of_passable some_ passable]

theorem mem_filesIn (tidy : disk.Tidy) {directory file : Path}
    (isDirectory : disk.isDirectory directory = true) : file ∈ filesIn disk directory ↔
      ∃ content, disk.entryAt? (directory.goal disk.current ++ file.segments) =
        some (.file content) := by
  rw [filesIn_eq isDirectory, List.mem_map]
  constructor
  · rintro ⟨listed, below, rfl⟩
    exact ⟨listed.2, (tidy.mem_filesBelow.1 below).2⟩
  · rintro ⟨content, stands⟩
    refine ⟨(file.segments, content), tidy.mem_filesBelow.2 ⟨?_, stands⟩, rfl⟩
    intro root
    rw [root] at stands
    exact absurd stands (by simp [Disk.entryAt?])

theorem filesIn_congr {first second : Disk} {directory : Path} (tidy : first.Tidy)
    (tidySecond : second.Tidy) (current : second.current = first.current)
    (here : first.isDirectory directory = true) (there : second.isDirectory directory = true)
    (same : ∀ place, directory.goal first.current <+: place →
      second.entryAt? place = first.entryAt? place) :
    filesIn second directory = filesIn first directory := by
  rw [filesIn_eq there, filesIn_eq here, current, Disk.filesBelow_congr tidy tidySecond same]

theorem registeredFiles_filesIn {file : Path} (member : file ∈ registeredFiles settings disk) :
    file ∈ filesIn disk settings.sources := by
  unfold registeredFiles at member
  split at member
  · exact (List.mem_filter.1 member).1
  · exact absurd member (by simp)

theorem registeredFiles_congr {first second : Disk}
    (same : filesIn second settings.sources = filesIn first settings.sources) :
    registeredFiles settings second = registeredFiles settings first := by
  unfold registeredFiles selectedFiles
  rw [same]

/-- A file below a directory has a name. -/
theorem filesIn_segments {directory file : Path} (tidy : disk.Tidy)
    (isDirectory : disk.isDirectory directory = true) (member : file ∈ filesIn disk directory) :
    file.segments ≠ [] := by
  obtain ⟨_, _, stands⟩ := Disk.entry_eq_some (beq_iff_eq.1 isDirectory)
  obtain ⟨content, isFile⟩ := (mem_filesIn tidy isDirectory).1 member
  intro empty
  rw [empty, List.append_nil, stands] at isFile
  exact absurd isFile (by simp)

end Build

end EoAssembly
