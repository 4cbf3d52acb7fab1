import EoAssembly.Proofs.Disk.Raised

/-!
Contract: changes of a disk that are confined to an area.

Outside of the area every entry stays as it was, and all that can appear there are
directories where nothing stood.  A write whose goal is in the area is confined to it,
whether or not it succeeds, and so is a change of a catalog whose files are.

Owns `Disk.Confined` and its rules for writes and catalogs.
-/

namespace EoAssembly

/-- Between two disks nothing happened outside of an area, but for directories that were made
where nothing stood. -/
structure Disk.Confined (area : Location → Prop) (before after : Disk) : Prop where
  sound : after.Sound
  current : after.current = before.current
  outside : ∀ location, ¬area location →
    after.entryAt? location = before.entryAt? location ∨
      (before.entryAt? location = none ∧ after.entryAt? location = some .directory)

namespace Disk.Confined

variable {area : Location → Prop} {before between after : Disk} {written gone made : List Location}

theorem refl (sound : before.Sound) : Confined area before before :=
  ⟨sound, rfl, fun _ _ => Or.inl rfl⟩

theorem trans (first : Confined area before between) (second : Confined area between after) :
    Confined area before after where
  sound := second.sound
  current := second.current.trans first.current
  outside location free := by
    rcases second.outside location free with same | ⟨nothing, directory⟩
    · rw [same]
      exact first.outside location free
    · rcases first.outside location free with same | ⟨_, wrong⟩
      · exact Or.inr ⟨same ▸ nothing, directory⟩
      · rw [wrong] at nothing
        exact absurd nothing (by simp)

/-- What touches files in an area only is confined to it. -/
theorem of_touches (touches : Touches written gone made before after)
    (writes : ∀ location ∈ written, area location) (loses : ∀ location ∈ gone, area location) :
    Confined area before after where
  sound := touches.sound
  current := touches.current
  outside location free := by
    apply (touches.others location (fun member => free (writes location member))
      fun member => free (loses location member)).imp_right
    rintro ⟨_, nothing, directory⟩
    exact ⟨nothing, directory⟩

end Disk.Confined

variable {area : Location → Prop} {disk next : Disk}

/-- A write that may fail is confined to an area with its goal. -/
theorem Document.confined_writeBelow {path : Path} {text : String} {outcome : Except Failure Unit}
    (sound : disk.Sound) (goal : area (path.goal disk.current))
    (ran : writeBelow disk path text = (outcome, next)) : Disk.Confined area disk next := by
  obtain ⟨made, touches, _⟩ := writeBelow_any sound ran
  apply Disk.Confined.of_touches touches
  · simpa using goal
  · simp

namespace Catalog

open Disk (Confined)

variable {catalog after : Catalog} {file : Path} {id : String}

/-- Persisting a catalog is confined to an area with its file and the sibling of it. -/
theorem confined_persist {outcome : Except Failure Unit} (sound : disk.Sound)
    (isFile : catalog.path = file) (goal : area (file.goal disk.current))
    (sibling : area ((file.extended ".tmp").goal disk.current))
    (ran : catalog.persist disk = (outcome, next)) : Confined area disk next := by
  have isSibling : catalog.sibling = file.extended ".tmp" := by
    unfold Catalog.sibling
    rw [isFile]
  have touches := persist_any sound ran
  rw [isFile, isSibling] at touches
  apply Confined.of_touches touches
  · simpa using ⟨goal, sibling⟩
  · simpa using sibling

/-- Adding a record is confined to an area with the catalog file and its sibling. -/
theorem confined_add {outcome : Except Failure Record} (sound : disk.Sound)
    (isFile : catalog.path = file) (goal : area (file.goal disk.current))
    (sibling : area ((file.extended ".tmp").goal disk.current))
    (ran : catalog.add id disk = (outcome, after, next)) :
    after.path = file ∧ Confined area disk next := by
  rcases add_any ran with ⟨_, _, _, rfl, rfl⟩ | ⟨_, rfl, _, persisted, _⟩
  · exact ⟨isFile, .refl sound⟩
  · exact ⟨isFile, confined_persist sound (path_put.trans isFile) goal sibling persisted⟩

/-- Changing a record is confined to an area with the catalog file and its sibling. -/
theorem confined_update {change : Record → Record} {outcome : Except Failure Record}
    (sound : disk.Sound) (isFile : catalog.path = file) (goal : area (file.goal disk.current))
    (sibling : area ((file.extended ".tmp").goal disk.current))
    (ran : catalog.update id change disk = (outcome, after, next)) :
    after.path = file ∧ Confined area disk next := by
  cases found : catalog.find? id with
  | none =>
    rw [update_missing found] at ran
    obtain ⟨rfl, rfl⟩ := Prod.mk.inj (Prod.mk.inj ran).2
    exact ⟨isFile, .refl sound⟩
  | some record =>
    obtain ⟨rfl, ⟨_, rfl, _⟩ | ⟨_, _, persisted, _⟩⟩ := update_any found ran
    · exact ⟨isFile, .refl sound⟩
    · exact ⟨isFile, confined_persist sound (path_put.trans isFile) goal sibling persisted⟩

end Catalog

end EoAssembly
