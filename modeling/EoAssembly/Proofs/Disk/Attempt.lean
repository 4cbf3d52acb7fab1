import EoAssembly.Proofs.Disk.Frame

/-!
Contract: what the operations of a disk leave alone when they fail as well.

A write or a replacement that fails leaves the disk as it was, but for the schedule
of forced failures and for the directories that were created on the way.

Owns the failures of `writeText`, `replace` and `writeBelow`, and the frames of
these operations for any outcome.
-/

namespace EoAssembly.Disk

variable {disk next : Disk} {path source target : Path} {text : String} {refusal : Refusal}

theorem writeText_failed (ran : disk.writeText path text = (.error refusal, next)) :
    next = disk.takeOutage.2 := by
  unfold writeText writeFile at ran
  generalize disk.takeOutage = taken at ran
  obtain ⟨forced, ready⟩ := taken
  simp only at ran ⊢
  split at ran
  · exact (Prod.mk.inj ran).2.symm
  · split at ran
    · exact (Prod.mk.inj ran).2.symm
    · exact absurd (Prod.mk.inj ran).1 (by simp)

theorem replace_failed (ran : disk.replace source target = (.error refusal, next)) :
    next = disk.takeOutage.2 := by
  unfold replace at ran
  generalize disk.takeOutage = taken at ran
  obtain ⟨forced, ready⟩ := taken
  simp only at ran ⊢
  split at ran
  · exact (Prod.mk.inj ran).2.symm
  · split at ran
    · exact absurd (Prod.mk.inj ran).1 (by simp)
    · exact (Prod.mk.inj ran).2.symm
    · exact (Prod.mk.inj ran).2.symm

/-- A write touches the goal of its path at most. -/
theorem touches_writeText (sound : disk.Sound) {outcome : Except Refusal Unit}
    (ran : disk.writeText path text = (outcome, next)) :
    Touches [path.goal disk.current] [] [] disk next := by
  cases outcome with
  | error refusal =>
    rw [writeText_failed ran]
    exact (touches_takeOutage sound).mono (by simp) (by simp) (by simp)
  | ok value => exact (writeText_ok sound ran).2.1

/-- A replacement touches the goals of its paths at most. -/
theorem touches_replace (sound : disk.Sound) {outcome : Except Refusal Unit}
    (ran : disk.replace source target = (outcome, next)) :
    Touches [target.goal disk.current] [source.goal disk.current] [] disk next := by
  cases outcome with
  | error refusal =>
    rw [replace_failed ran]
    exact (touches_takeOutage sound).mono (by simp) (by simp) (by simp)
  | ok value => exact (replace_ok sound ran).2.1

/-- A file that was moved no longer stands where it stood. -/
theorem replace_gone (apart : source.goal disk.current ≠ target.goal disk.current)
    (ran : disk.replace source target = (.ok (), next)) :
    next.entryAt? (source.goal disk.current) = none := by
  obtain ⟨origin, content, location, leads, file, writable, result⟩ := replace_eq_ok ran
  obtain ⟨_, _, sameOrigin⟩ := passable_of_resolve? leads
  obtain ⟨_, _, here, _, noDirectory⟩ := writableAt_ok writable
  have stands := (entry_eq_some file).2.2
  rw [takeOutage_current] at sameOrigin here stands
  have notRoot : source.goal disk.current ≠ [] := by
    intro root
    rw [root] at stands
    exact absurd stands (by simp [entryAt?])
  rw [result, entryAt?_put _ (notRoot_of_writable noDirectory), here, if_neg apart, entryAt?_erase,
    sameOrigin, if_pos ⟨notRoot, List.isPrefixOf_iff_prefix.2 (List.prefix_refl _)⟩]

/-- An entry that is a file after directories and other files appeared was one before. -/
theorem Touches.file_before {written gone made : List Location} {before after : Disk}
    {location : Location} {content : FileContent} (touches : Touches written gone made before after)
    (unwritten : location ∉ written) (kept : location ∉ gone)
    (stands : after.entryAt? location = some (.file content)) :
    before.entryAt? location = some (.file content) := by
  rcases touches.others location unwritten kept with same | ⟨_, _, directory⟩
  · rw [← same]
    exact stands
  · rw [directory] at stands
    exact absurd stands (by simp)

/-- A file that is not touched stands afterwards exactly when it stood before. -/
theorem Touches.file_iff {written gone made : List Location} {before after : Disk}
    {location : Location} {content : FileContent} (touches : Touches written gone made before after)
    (unwritten : location ∉ written) (kept : location ∉ gone) :
    after.entryAt? location = some (.file content) ↔
      before.entryAt? location = some (.file content) :=
  ⟨touches.file_before unwritten kept, touches.stays unwritten kept⟩

end EoAssembly.Disk

namespace EoAssembly.Document

open Disk (Touches)

/-- Writing a file below new directories touches the file and its way at most. -/
theorem touches_writeBelow {disk next : Disk} (sound : disk.Sound) {path : Path}
    (ends : path.EndsInName) {text : String} {outcome : Except Failure Unit}
    (ran : writeBelow disk path text = (outcome, next)) :
    Touches [path.goal disk.current] [] (path.way disk.current) disk next := by
  cases writeBelow_iff.1 ran with
  | unprepared created =>
    exact (Disk.touches_createParent sound created).mono (by simp) (by simp)
      (ends.way_of_enclosing _)
  | unwritten created wrote | written created wrote =>
    have first := Disk.touches_createParent sound created
    have second := Disk.touches_writeText first.sound wrote
    rw [first.current] at second
    exact (first.mono (by simp) (by simp) (ends.way_of_enclosing _)).trans
      (second.mono (fun _ => id) (by simp) (by simp))

end EoAssembly.Document
