import EoAssembly.Catalog.Basic
import EoAssembly.Proofs.Disk.Frame
import EoAssembly.Proofs.Ordered

/-!
Contract: what adding and changing records does to a catalog and to the disk.

A catalog behaves as a map from ids to records.  A change that succeeds puts one
record and touches at most the catalog file and its sibling.

Owns the laws of `put`, `add`, `update`, `persist` and `openAt`.

Does not own: the text of the catalog file.
-/

namespace EoAssembly.Catalog

open Disk (Touches)

variable {catalog after : Catalog} {disk next : Disk} {record : Record} {id other : String}

/-! ## Records -/

/-- The records of a catalog grow from each id to the next. -/
def Sorted (catalog : Catalog) : Prop := Ordered.Ascending Record.id catalog.records

theorem find?_put_same (catalog : Catalog) (record : Record) :
    (catalog.put record).find? record.id = some record :=
  Ordered.find?_put_same Record.id record catalog.records

theorem find?_put_other (catalog : Catalog) {record : Record} {id : String}
    (different : record.id ≠ id) : (catalog.put record).find? id = catalog.find? id :=
  Ordered.find?_put_other different catalog.records

theorem find?_put_eq (catalog : Catalog) (record : Record) (id : String) :
    (catalog.put record).find? id = if id = record.id then some record else catalog.find? id := by
  split
  · next same =>
    rw [same]
    exact catalog.find?_put_same record
  · next different => exact catalog.find?_put_other (Ne.symm different)

theorem id_of_find? (found : catalog.find? id = some record) : record.id = id :=
  (Ordered.key_of_find? found).1

theorem mem_of_find? (found : catalog.find? id = some record) : record ∈ catalog.records :=
  (Ordered.key_of_find? found).2

theorem find?_of_mem (sorted : catalog.Sorted) (member : record ∈ catalog.records) :
    catalog.find? record.id = some record :=
  Ordered.find?_of_mem sorted member

/-- Catalogs in order that find the same records are the same. -/
theorem eq_of_find {first second : Catalog} (path : second.path = first.path)
    (sorted : first.Sorted) (sortedSecond : second.Sorted)
    (same : ∀ id, second.find? id = first.find? id) : second = first := by
  have records : second.records = first.records := Ordered.eq_of_find? sortedSecond sorted same
  obtain ⟨_, _⟩ := first
  obtain ⟨_, _⟩ := second
  simp only at path records
  rw [path, records]

theorem sorted_put (sorted : catalog.Sorted) : (catalog.put record).Sorted :=
  Ordered.ascending_put sorted

theorem Sorted.nodup_ids (sorted : catalog.Sorted) : (catalog.records.map Record.id).Nodup := by
  refine (List.pairwise_map.2 sorted).imp fun less same => ?_
  rw [same] at less
  exact String.lt_irrefl _ less

theorem path_put : (catalog.put record).path = catalog.path := rfl

/-! ## Writing the catalog file -/

/-- How persisting a catalog ends: at the directories, at the sibling, at the catalog file, or
with the sibling in the place of the catalog file. -/
inductive Persists (catalog : Catalog) (disk : Disk) : Except Failure Unit → Disk → Prop
  | unprepared {refusal : Refusal} {next : Disk}
      (created : disk.createParent catalog.path = (.error refusal, next)) :
      Persists catalog disk (.error (.host refusal.message)) next
  | unwritten {prepared next : Disk} {refusal : Refusal}
      (created : disk.createParent catalog.path = (.ok (), prepared))
      (wrote : prepared.writeText catalog.sibling catalog.render = (.error refusal, next)) :
      Persists catalog disk (.error (catalog.siblingRefused refusal)) next
  | unmoved {prepared written next : Disk} {refusal : Refusal}
      (created : disk.createParent catalog.path = (.ok (), prepared))
      (wrote : prepared.writeText catalog.sibling catalog.render = (.ok (), written))
      (moved : written.replace catalog.sibling catalog.path = (.error refusal, next)) :
      Persists catalog disk (.error (catalog.replaceRefused refusal)) next
  | replaced {prepared written next : Disk}
      (created : disk.createParent catalog.path = (.ok (), prepared))
      (wrote : prepared.writeText catalog.sibling catalog.render = (.ok (), written))
      (moved : written.replace catalog.sibling catalog.path = (.ok (), next)) :
      Persists catalog disk (.ok ()) next

theorem persist_iff {outcome : Except Failure Unit} :
    catalog.persist disk = (outcome, next) ↔ Persists catalog disk outcome next := by
  constructor
  · intro ran
    unfold persist at ran
    split at ran
    · next created =>
      obtain ⟨rfl, rfl⟩ := Prod.mk.inj ran
      exact .unprepared created
    · next created =>
      split at ran
      · next wrote =>
        obtain ⟨rfl, rfl⟩ := Prod.mk.inj ran
        exact .unwritten created wrote
      · next wrote =>
        split at ran
        · next moved =>
          obtain ⟨rfl, rfl⟩ := Prod.mk.inj ran
          exact .unmoved created wrote moved
        · next moved =>
          obtain ⟨rfl, rfl⟩ := Prod.mk.inj ran
          exact .replaced created wrote moved
  · intro ends
    unfold persist
    cases ends with
    | unprepared created => rw [created]
    | unwritten created wrote =>
      rw [created]
      simp only [wrote]
    | unmoved created wrote moved | replaced created wrote moved =>
      rw [created]
      simp only [wrote, moved]

theorem persist_endsInName (ran : catalog.persist disk = (.ok (), next)) :
    catalog.path.EndsInName := by
  cases persist_iff.1 ran with
  | replaced _ _ moved => exact Disk.replace_endsInName moved

/-- A catalog file that was written is there, and its sibling is gone. -/
theorem persist_ok (sound : disk.Sound) (ran : catalog.persist disk = (.ok (), next)) :
    next.Passable catalog.path ∧
      Touches [catalog.path.goal disk.current, catalog.sibling.goal disk.current]
        [catalog.sibling.goal disk.current] (Path.wayFrom disk.current catalog.path.enclosing)
        disk next := by
  cases persist_iff.1 ran with
  | replaced created wrote moved =>
    have first := Disk.touches_createParent sound created
    obtain ⟨_, second, _⟩ := Disk.writeText_ok first.sound wrote
    obtain ⟨passable, third, _⟩ := Disk.replace_ok second.sound moved
    rw [second.current] at third
    rw [first.current] at second third
    refine ⟨third.passable passable, ?_⟩
    exact ((first.mono (by simp) (by simp) (fun _ => id)).trans
      (second.mono (by simp) (by simp) (by simp))).trans (third.mono (by simp) (fun _ => id) (by simp))

/-! ## Changes -/

/-- Adding a record leaves the catalog alone or puts a fresh one. -/
theorem add_ok (ran : catalog.add id disk = (.ok record, after, next)) :
    (catalog.find? id = some record ∧ after = catalog ∧ next = disk) ∨
    (catalog.find? id = none ∧ record = .ofId id ∧ after = catalog.put (.ofId id) ∧
      after.persist disk = (.ok (), next)) := by
  unfold add at ran
  split at ran
  · next found =>
    have parts := Prod.mk.inj ran
    have rest := Prod.mk.inj parts.2
    rw [found]
    exact Or.inl ⟨congrArg some (Except.ok.inj parts.1), rest.1.symm, rest.2.symm⟩
  · next missing =>
    simp only at ran
    split at ran
    · next written persisted =>
      have parts := Prod.mk.inj ran
      have rest := Prod.mk.inj parts.2
      refine Or.inr ⟨missing, (Except.ok.inj parts.1).symm, rest.1.symm, ?_⟩
      rw [← rest.1, ← rest.2]
      exact persisted
    · exact absurd (Prod.mk.inj ran).1 (by simp)

/-- Changing a record puts the changed one, which keeps its id. -/
theorem update_ok {change : Record → Record}
    (ran : catalog.update id change disk = (.ok record, after, next)) :
    ∃ before, catalog.find? id = some before ∧
      record = { change before with id := before.id } ∧ record.id = id ∧
      after = catalog.put record ∧ (next = disk ∨ after.persist disk = (.ok (), next)) := by
  unfold update at ran
  split at ran
  · exact absurd (Prod.mk.inj ran).1 (by simp)
  · next before found =>
    simp only at ran
    have sameId := id_of_find? found
    split at ran
    · have parts := Prod.mk.inj ran
      have rest := Prod.mk.inj parts.2
      have same := Except.ok.inj parts.1
      refine ⟨before, found, same.symm, ?_, ?_, Or.inl rest.2.symm⟩
      · rw [← same]
        exact sameId
      · rw [← rest.1, same]
    · split at ran
      · next written persisted =>
        have parts := Prod.mk.inj ran
        have rest := Prod.mk.inj parts.2
        have same := Except.ok.inj parts.1
        refine ⟨before, found, same.symm, ?_, ?_, Or.inr ?_⟩
        · rw [← same]
          exact sameId
        · rw [← rest.1, same]
        · rw [← rest.1, ← rest.2]
          exact persisted
      · exact absurd (Prod.mk.inj ran).1 (by simp)

/-! ## Opening -/

theorem openAt_missing {path : Path} (missing : disk.exists? path = false) :
    openAt disk path = .ok ⟨path, []⟩ := by
  unfold openAt
  rw [missing]
  rfl

/-- What opens has no file, or the records that its file reads as. -/
theorem openAt_cases {path : Path} (opened : openAt disk path = .ok catalog) :
    (disk.exists? path = false ∧ catalog = ⟨path, []⟩) ∨
    ∃ text records, disk.entry? path = some (.file (.text text)) ∧
      Record.allOfText? text = some records ∧ catalog = ⟨path, recordsOf records⟩ := by
  unfold openAt at opened
  split at opened
  · split at opened
    · exact absurd opened (by simp)
    · next text read =>
      split at opened
      · next records reads =>
        exact Or.inr ⟨text, records, Disk.readText_eq_ok.1 read, reads, (Except.ok.inj opened).symm⟩
      · exact absurd opened (by simp)
  · next missing => exact Or.inl ⟨by simpa using missing, (Except.ok.inj opened).symm⟩

theorem openAt_ok {path : Path} (opened : openAt disk path = .ok catalog) :
    catalog.path = path ∧ catalog.Sorted ∧ (catalog.records = [] ∨ disk.exists? path = true) := by
  rcases openAt_cases opened with ⟨_, rfl⟩ | ⟨_, _, stands, _, rfl⟩
  · exact ⟨rfl, List.Pairwise.nil, Or.inl rfl⟩
  · exact ⟨rfl, Ordered.ascending_ofList Record.id _, Or.inr (Disk.exists?_iff.2 ⟨_, stands⟩)⟩

end EoAssembly.Catalog
