import EoAssembly.Proofs.Build.Reordered

/-!
Contract: recording the optimized documents of a project.

The records of the documents change one after the other, and each change is persisted at once.
Wherever that stops, the catalog keeps its objects, nothing new waits for its optimized form, and
at most the catalog file and its sibling are touched.  When it is done the recorded objects are
marked, all other records are as they were, and the catalog file holds them.

Owns `optimizedRecord` and `recordOptimized` for any outcome and for success.
-/

namespace EoAssembly

namespace Build

open Disk (Touches)

variable {target place : Path} {id : String} {before between after start : Workspace}
  {items done : List (String × Path)} {catalog : Catalog}

/-! ## Marked records -/

/-- A record whose optimized document is recorded, if it waits for that. -/
def optimizedRecord (target : Path) (record : Record) : Record :=
  if (awaitsOptimize record).isSome then asOptimized (optimizedPlace target record.id) record
  else record

theorem lists_iff : Lists catalog id ↔ ∃ record, catalog.find? id = some record := by
  constructor
  · rintro ⟨record, member, rfl⟩
    unfold Catalog.find? Ordered.find?
    cases found : catalog.records.find? fun item => item.id == record.id with
    | some other => exact ⟨other, rfl⟩
    | none =>
      have different := List.find?_eq_none.1 found record member
      exact absurd different (by simp)
  · rintro ⟨record, found⟩
    exact ⟨record, Catalog.mem_of_find? found, Catalog.id_of_find? found⟩

theorem unoptimized_iff (sorted : catalog.Sorted) {item : String × Path} :
    item ∈ unoptimized catalog ↔ ∃ record, catalog.find? item.1 = some record ∧
      record.optimized = none ∧ record.xmir = some item.2 := by
  rw [mem_unoptimized]
  constructor
  · rintro ⟨record, member, none, xmir, same⟩
    refine ⟨record, ?_, none, xmir⟩
    rw [← same]
    exact Catalog.find?_of_mem sorted member
  · rintro ⟨record, found, none, xmir⟩
    exact ⟨record, Catalog.mem_of_find? found, none, xmir, Catalog.id_of_find? found⟩

/-- A record with a first optimized document is not the same as before. -/
theorem same_asOptimized {record : Record} (waits : record.optimized = none) :
    Record.same { asOptimized place record with id := id } record = false := by
  unfold Record.same asOptimized
  rw [waits]
  simp [Record.componentsOf]

/-! ## Wherever it stops -/

/-- A catalog with the same objects, of which no more wait for their optimized forms, and a disk
where the catalog file and its sibling were touched at most. -/
structure KeepsObjects (before after : Workspace) : Prop where
  external : after.external = before.external
  path : after.foreign.path = before.foreign.path
  sorted : after.foreign.Sorted
  lists : ∀ id, Lists after.foreign id ↔ Lists before.foreign id
  waits : ∀ item ∈ unoptimized after.foreign, item ∈ unoptimized before.foreign
  touches : ∃ made, Touches
    [before.foreign.path.goal before.disk.current, before.foreign.sibling.goal before.disk.current]
    [before.foreign.sibling.goal before.disk.current] made before.disk after.disk

namespace KeepsObjects

theorem refl (sorted : before.foreign.Sorted) (sound : before.disk.Sound) :
    KeepsObjects before before :=
  ⟨rfl, rfl, sorted, fun _ => Iff.rfl, fun _ => id, [], .refl sound⟩

theorem trans (first : KeepsObjects before between) (second : KeepsObjects between after) :
    KeepsObjects before after where
  external := second.external.trans first.external
  path := second.path.trans first.path
  sorted := second.sorted
  lists id := (second.lists id).trans (first.lists id)
  waits item member := first.waits item (second.waits item member)
  touches := by
    obtain ⟨made, touches⟩ := first.touches
    obtain ⟨more, later⟩ := second.touches
    unfold Catalog.sibling at touches later ⊢
    rw [first.path, touches.current] at later
    refine ⟨made ++ more, ?_⟩
    have first := touches.mono (fun _ member => member) (fun _ member => member)
      (fun _ member => List.mem_append_left more member)
    have second := later.mono (fun _ member => member) (fun _ member => member)
      (fun _ member => List.mem_append_right made member)
    exact first.trans second

end KeepsObjects

theorem updateForeign_keepsObjects {outcome : Except Failure Record}
    (sorted : before.foreign.Sorted) (sound : before.disk.Sound)
    (ran : (Step.updateForeign id (asOptimized place)).perform before = (outcome, after)) :
    KeepsObjects before after := by
  obtain ⟨catalog, disk, updated, rfl⟩ := Step.perform_updateForeign ran
  cases found : before.foreign.find? id with
  | none =>
    rw [Catalog.update_missing found] at updated
    obtain ⟨rfl, rfl⟩ := Prod.mk.inj (Prod.mk.inj updated).2
    exact .refl sorted sound
  | some record =>
    obtain ⟨rfl, written⟩ := Catalog.update_any found updated
    have finds := before.foreign.find?_put_eq { asOptimized place record with id := id }
    have sortedNext : (before.foreign.put { asOptimized place record with id := id }).Sorted :=
      Catalog.sorted_put sorted
    refine ⟨rfl, rfl, sortedNext, fun other => ?_, fun item member => ?_, ?_⟩
    · rw [lists_iff, lists_iff, finds]
      split
      · next same =>
        rw [same, found]
        simp
      · exact Iff.rfl
    · obtain ⟨changed, isChanged, none, xmir⟩ := (unoptimized_iff sortedNext).1 member
      rw [finds] at isChanged
      split at isChanged
      · rw [← Option.some.inj isChanged] at none
        exact absurd none (by simp [asOptimized])
      · exact (unoptimized_iff sorted).2 ⟨changed, isChanged, none, xmir⟩
    · rcases written with ⟨_, rfl, _⟩ | ⟨_, _, persisted, _⟩
      · exact ⟨[], .refl sound⟩
      · have touches := Catalog.persist_any sound persisted
        exact ⟨_, touches⟩

theorem KeepsObjects.sound (keeps : KeepsObjects before after) : after.disk.Sound := by
  obtain ⟨_, touches⟩ := keeps.touches
  exact touches.sound

/-- A project stays orderly when its catalog keeps its objects. -/
theorem Orderly.kept (orderly : Orderly target before.foreign before.disk)
    (keeps : KeepsObjects before after) : Orderly target after.foreign after.disk := by
  obtain ⟨_, touches⟩ := keeps.touches
  have sibling : after.foreign.sibling = before.foreign.sibling := by
    unfold Catalog.sibling
    rw [keeps.path]
  refine ⟨touches.sound, keeps.sorted, touches.passable orderly.passable, ?_, ?_, ?_, ?_, ?_, ?_⟩
  · exact fun id lists => orderly.lettered id ((keeps.lists id).1 lists)
  · exact fun id twin lists listsTwin =>
      orderly.clear id twin ((keeps.lists id).1 lists) ((keeps.lists twin).1 listsTwin)
  · intro item waits
    obtain ⟨passable, outside⟩ := orderly.documents item (keeps.waits item waits)
    rw [touches.current]
    exact ⟨touches.passable passable, outside⟩
  · rw [keeps.path]
    exact orderly.isText
  · rw [keeps.path, touches.current]
    exact orderly.file
  · rw [sibling, touches.current]
    exact orderly.sibling

/-- Wherever recording stops, the catalog keeps its objects. -/
theorem recordOptimized_keepsObjects {outcome : Except Failure Unit}
    (sorted : before.foreign.Sorted) (sound : before.disk.Sound)
    (ran : (recordOptimized done).perform before = (outcome, after)) :
    KeepsObjects before after := by
  have throughout : (recordOptimized done).KeepsThroughout (KeepsObjects before) := by
    clear ran
    induction done with
    | nil => exact .pure
    | cons item rest inductionHypothesis =>
      refine .bind ?_ fun _ => inductionHypothesis
      intro present answer next keeps updated
      exact keeps.trans (updateForeign_keepsObjects keeps.sorted keeps.sound updated)
  exact throughout before outcome after (.refl sorted sound) ran

/-! ## When it is done -/

/-- A record is updated on every disk with the same entries that forces no failure. -/
theorem recordOptimized_alike (ran : (recordOptimized done).Yields before () after)
    (foreign : start.foreign = before.foreign) (alike : before.disk.Alike start.disk)
    (calm : start.disk.Calm) :
    ∃ last, (recordOptimized done).Yields start () last ∧ last.foreign = after.foreign ∧
      after.disk.Alike last.disk := by
  induction done generalizing before start with
  | nil =>
    obtain ⟨_, rfl⟩ := Step.yields_pure.1 ran
    exact ⟨start, Step.yields_pure.2 ⟨rfl, rfl⟩, foreign, alike⟩
  | cons item rest inductionHypothesis =>
    obtain ⟨id, place⟩ := item
    obtain ⟨record, between, ranFirst, ranRest⟩ := Step.yields_bind.1 ran
    obtain ⟨catalog, disk, updated, rfl⟩ := Step.yields_updateForeign.1 ranFirst
    -- Whether the catalog is persisted follows from its records, which are the same.
    have again : ∃ last, start.foreign.update id (asOptimized place) start.disk =
        (.ok record, catalog, last) ∧ disk.Alike last ∧ last.Calm := by
      rw [foreign]
      obtain ⟨old, found, _⟩ := Catalog.update_ok updated
      obtain ⟨rfl, ⟨same, rfl, isRecord⟩ | ⟨_, written, persisted, isRecord⟩⟩ :=
        Catalog.update_any found updated
      · refine ⟨start.disk, ?_, alike, calm⟩
        unfold Catalog.update
        rw [found]
        simp only [Catalog.id_of_find? found, same, if_true]
        rw [isRecord]
      · cases written with
        | error failure => exact absurd isRecord (by simp [Except.map])
        | ok value =>
          obtain ⟨last, persistedThere, alikeLast, calmLast⟩ :=
            Catalog.persist_alike alike calm persisted
          unfold Catalog.update at updated ⊢
          rw [found] at updated ⊢
          simp only [Catalog.id_of_find? found] at updated ⊢
          split at updated
          · next same =>
            refine ⟨start.disk, ?_, ?_, calm⟩
            · rw [if_pos same, (Prod.mk.inj updated).1]
            · rw [← (Prod.mk.inj (Prod.mk.inj updated).2).2]
              exact alike
          · next changed =>
            refine ⟨last, ?_, alikeLast, calmLast⟩
            rw [if_neg changed, persistedThere, isRecord]
            rfl
    obtain ⟨there, updatedThere, alikeThere, calmThere⟩ := again
    obtain ⟨last, ranLast, sameForeign, alikeLast⟩ := @inductionHypothesis _
      { start with foreign := catalog, disk := there } ranRest rfl alikeThere calmThere
    exact ⟨last, Step.yields_bind.2 ⟨record, _,
      Step.yields_updateForeign.2 ⟨catalog, there, updatedThere, rfl⟩, ranLast⟩, sameForeign,
      alikeLast⟩

/-- A waiting record is marked, no other one changes, and the catalog file holds the records. -/
theorem updateForeign_holds {record answer : Record} (sound : before.disk.Sound)
    (isText : before.foreign.path.IsText) (found : before.foreign.find? id = some record)
    (waits : record.optimized = none)
    (ran : (Step.updateForeign id (asOptimized place)).Yields before answer after) :
    (∀ other, after.foreign.find? other =
      if other = id then some (asOptimized place record) else before.foreign.find? other) ∧
      after.disk.entryAt? (before.foreign.path.goal before.disk.current) =
        some (.file (.text after.foreign.render)) := by
  obtain ⟨catalog, disk, updated, rfl⟩ := Step.yields_updateForeign.1 ran
  obtain ⟨rfl, unchanged | ⟨_, written, persisted, isOk⟩⟩ := Catalog.update_any found updated
  · rw [same_asOptimized waits] at unchanged
    exact absurd unchanged.1 (by simp)
  · constructor
    · intro other
      rw [Catalog.find?_put_eq, ← Catalog.id_of_find? found]
      rfl
    · cases written with
      | error failure => exact absurd isOk (by simp [Except.map])
      | ok value =>
        have ends := Catalog.persist_endsInName persisted
        have apart := Catalog.sibling_apart (by exact isText) ends before.disk.current
        have stands := Catalog.persist_stands sound apart persisted
        exact stands.1

/-- Recording marks the given objects and no others, and the catalog file holds the records. -/
theorem recordOptimized_holds (sorted : before.foreign.Sorted) (sound : before.disk.Sound)
    (isText : before.foreign.path.IsText)
    (waits : ∀ item ∈ items, ∃ record, before.foreign.find? item.1 = some record ∧
      record.optimized = none) (distinct : (items.map Prod.fst).Nodup)
    (ran : (recordOptimized (placed target items)).Yields before () after) :
    (∀ id, after.foreign.find? id = (before.foreign.find? id).map fun record =>
      if id ∈ items.map Prod.fst then asOptimized (optimizedPlace target id) record else record) ∧
      (items ≠ [] → after.disk.entryAt? (before.foreign.path.goal before.disk.current) =
        some (.file (.text after.foreign.render))) := by
  induction items generalizing before with
  | nil =>
    obtain ⟨_, rfl⟩ := Step.yields_pure.1 ran
    exact ⟨fun id => by simp, fun some_ => absurd rfl some_⟩
  | cons item rest inductionHypothesis =>
    obtain ⟨waitsFirst, waitsRest⟩ := List.forall_mem_cons.1 waits
    obtain ⟨isNew, distinctRest⟩ := List.nodup_cons.1 distinct
    obtain ⟨record, found, isWaiting⟩ := waitsFirst
    obtain ⟨_, between, ranFirst, ranRest⟩ := Step.yields_bind.1 ran
    have keeps := updateForeign_keepsObjects sorted sound ranFirst
    obtain ⟨finds, stands⟩ := updateForeign_holds sound isText found isWaiting ranFirst
    have waitsThere : ∀ other ∈ rest, ∃ record, between.foreign.find? other.1 = some record ∧
        record.optimized = none := by
      intro other member
      have different : other.1 ≠ item.1 := fun same => isNew (same ▸ List.mem_map_of_mem member)
      rw [finds, if_neg different]
      exact waitsRest other member
    have isTextThere : between.foreign.path.IsText := keeps.path ▸ isText
    obtain ⟨marks, holds⟩ := inductionHypothesis keeps.sorted keeps.sound isTextThere waitsThere
      distinctRest ranRest
    constructor
    · intro id
      rw [marks id, finds, List.map_cons]
      by_cases here : id = item.1
      · rw [if_pos here, here, found, Option.map_some, Option.map_some, if_neg isNew,
          if_pos List.mem_cons_self]
      · rw [if_neg here]
        simp only [List.mem_cons, here, false_or]
    · intro _
      obtain ⟨_, touches⟩ := keeps.touches
      rw [keeps.path, touches.current] at holds
      by_cases last : rest = []
      · rw [last] at ranRest
        obtain ⟨_, rfl⟩ := Step.yields_pure.1 ranRest
        exact stands
      · exact holds last

end Build

end EoAssembly
