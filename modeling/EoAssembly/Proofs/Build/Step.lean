import EoAssembly.Build.Workspace
import EoAssembly.Proofs.Catalog.Update

/-!
Contract: how steps run one after the other.

A step yields a value and a workspace when it succeeds.  A step that is made of
others yields what the others yield in turn, and a property of workspaces that
every part keeps is kept by the whole.

Owns `Step.Yields` with its inversions for composed steps and single operations,
and `Step.Keeps` with its composition.
-/

namespace EoAssembly.Step

universe u

variable {α β : Type} {before between after : Workspace}

/-- A step succeeds with a value and leads from one workspace to another. -/
def Yields (step : Step α) (before : Workspace) (value : α) (after : Workspace) : Prop :=
  step.perform before = (.ok value, after)

/-! ## Runs -/

theorem yields_perform {step : Step α} {value : α} (ran : (step.perform before).1 = .ok value) :
    step.Yields before value (step.perform before).2 :=
  Prod.ext ran rfl

/-- A step yields one value and one workspace. -/
theorem Yields.unique {step : Step α} {value other : α} {last : Workspace}
    (ran : step.Yields before value after) (ranOther : step.Yields before other last) :
    value = other ∧ after = last := by
  obtain ⟨same, sameAfter⟩ := Prod.mk.inj (ran.symm.trans ranOther)
  exact ⟨Except.ok.inj same, sameAfter⟩

theorem perform_ofAction (action : Workspace → Except Failure α × Workspace) :
    (ofAction action).perform before = action before := rfl

theorem perform_pure (value : α) : (pure value : Step α).perform before = (.ok value, before) := rfl

theorem perform_bind (step : Step α) (next : α → Step β) :
    (step >>= next).perform before =
      match step.perform before with
      | (.ok value, between) => (next value).perform between
      | (.error failure, between) => (.error failure, between) := by
  change ExceptT.bindCont next (step.perform before).1 (step.perform before).2 = _
  cases step.perform before with
  | mk outcome between => cases outcome <;> rfl

theorem yields_pure {value result : α} :
    (pure value : Step α).Yields before result after ↔ value = result ∧ before = after := by
  unfold Yields
  rw [perform_pure]
  simp

/-- Steps one after the other end where the first one fails, or else where the second one ends. -/
theorem ends_bind {step : Step α} {next : α → Step β} {outcome : Except Failure β}
    (ran : (step >>= next).perform before = (outcome, after)) :
    (∃ failure, step.perform before = (.error failure, after) ∧ outcome = .error failure) ∨
      ∃ value between, step.Yields before value between ∧
        (next value).perform between = (outcome, after) := by
  rw [perform_bind] at ran
  cases performed : step.perform before with
  | mk answer between =>
    rw [performed] at ran
    cases answer with
    | error failure =>
      obtain ⟨rfl, rfl⟩ := Prod.mk.inj ran
      exact Or.inl ⟨failure, rfl, rfl⟩
    | ok value => exact Or.inr ⟨value, between, performed, ran⟩

/-- A step whose value is put another way ends as the step does. -/
theorem ends_map {step : Step α} {put : α → β} {outcome : Except Failure β}
    (ran : (step >>= fun value => pure (put value)).perform before = (outcome, after)) :
    ∃ answer, step.perform before = (answer, after) ∧ outcome = answer.map put := by
  rcases ends_bind ran with ⟨failure, failed, rfl⟩ | ⟨value, between, yields, ranPut⟩
  · exact ⟨_, failed, rfl⟩
  · obtain ⟨rfl, rfl⟩ := Prod.mk.inj ranPut
    exact ⟨_, yields, rfl⟩

theorem perform_bind_of_yields {step : Step α} {next : α → Step β} {value : α}
    (ran : step.Yields before value between) :
    (step >>= next).perform before = (next value).perform between := by
  unfold Yields at ran
  rw [perform_bind, ran]

theorem perform_look_bind {view : Workspace → α} {next : α → Step β} :
    (look view >>= next).perform before = (next (view before)).perform before := rfl

theorem yields_bind {step : Step α} {next : α → Step β} {result : β} :
    (step >>= next).Yields before result after ↔
      ∃ value between, step.Yields before value between ∧
        (next value).Yields between result after := by
  unfold Yields
  rw [perform_bind]
  cases step.perform before with
  | mk outcome between =>
    cases outcome with
    | error failure => simp
    | ok value =>
      constructor
      · intro ran
        exact ⟨value, between, rfl, ran⟩
      · rintro ⟨_, _, same, ran⟩
        have parts := Prod.mk.inj same
        rw [Except.ok.inj parts.1, parts.2]
        exact ran

theorem yields_look {view : Workspace → α} {result : α} :
    (look view).Yields before result after ↔ view before = result ∧ before = after := by
  unfold Yields look
  rw [perform_ofAction]
  simp

theorem yields_ofOutcome {outcome : Except Failure α} {result : α} :
    (ofOutcome outcome).Yields before result after ↔ outcome = .ok result ∧ before = after := by
  unfold Yields ofOutcome
  rw [perform_ofAction]
  simp

theorem yields_fail {failure : Failure} {result : α} :
    ¬(fail failure : Step α).Yields before result after := by
  unfold fail
  rw [yields_ofOutcome]
  simp

theorem yields_ite {condition : Prop} [Decidable condition] {first second : Step α} {result : α} :
    (if condition then first else second).Yields before result after ↔
      (condition ∧ first.Yields before result after) ∨
      (¬condition ∧ second.Yields before result after) := by
  by_cases holds : condition
  · simp [holds]
  · simp [holds]

/-! ## Single operations -/

theorem yields_onDisk {action : Disk → Except Failure α × Disk} {result : α} :
    (onDisk action).Yields before result after ↔
      ∃ disk, action before.disk = (.ok result, disk) ∧ after = { before with disk := disk } := by
  unfold Yields onDisk
  rw [perform_ofAction]
  cases action before.disk with
  | mk outcome disk =>
    simp only [Prod.mk.injEq]
    constructor
    · rintro ⟨same, rest⟩
      exact ⟨disk, ⟨same, rfl⟩, rest.symm⟩
    · rintro ⟨other, ⟨same, sameDisk⟩, rest⟩
      rw [sameDisk]
      exact ⟨same, rest.symm⟩

theorem yields_write {path : Path} {text : String} {result : Unit} :
    (write path text).Yields before result after ↔
      ∃ disk, Document.writeBelow before.disk path text = (.ok (), disk) ∧
        after = { before with disk := disk } :=
  yields_onDisk

theorem yields_save {document : Document} {path : Path} {result : Unit} :
    (save document path).Yields before result after ↔
      ∃ text disk, document.render = .ok text ∧
        Document.writeBelow before.disk path text = (.ok (), disk) ∧
        after = { before with disk := disk } := by
  unfold save
  rw [yields_onDisk]
  unfold Document.save
  cases document.render with
  | error failure => simp
  | ok text => simp

theorem yields_load {path : Path} {result : Document} :
    (load path).Yields before result after ↔
      Document.load before.disk path = .ok result ∧ before = after := by
  unfold Yields load
  rw [perform_ofAction]
  simp

theorem yields_addForeign {id : String} {record : Record} :
    (addForeign id).Yields before record after ↔
      ∃ catalog disk, before.foreign.add id before.disk = (.ok record, catalog, disk) ∧
        after = { before with foreign := catalog, disk := disk } := by
  unfold Yields addForeign
  rw [perform_ofAction]
  cases before.foreign.add id before.disk with
  | mk outcome rest =>
    obtain ⟨catalog, disk⟩ := rest
    simp only [Prod.mk.injEq]
    constructor
    · rintro ⟨same, result⟩
      exact ⟨catalog, disk, ⟨same, rfl, rfl⟩, result.symm⟩
    · rintro ⟨_, _, ⟨same, sameCatalog, sameDisk⟩, result⟩
      rw [sameCatalog, sameDisk]
      exact ⟨same, result.symm⟩

theorem yields_updateForeign {id : String} {change : Record → Record} {record : Record} :
    (updateForeign id change).Yields before record after ↔
      ∃ catalog disk, before.foreign.update id change before.disk = (.ok record, catalog, disk) ∧
        after = { before with foreign := catalog, disk := disk } := by
  unfold Yields updateForeign
  rw [perform_ofAction]
  cases before.foreign.update id change before.disk with
  | mk outcome rest =>
    obtain ⟨catalog, disk⟩ := rest
    simp only [Prod.mk.injEq]
    constructor
    · rintro ⟨same, result⟩
      exact ⟨catalog, disk, ⟨same, rfl, rfl⟩, result.symm⟩
    · rintro ⟨_, _, ⟨same, sameCatalog, sameDisk⟩, result⟩
      rw [sameCatalog, sameDisk]
      exact ⟨same, result.symm⟩

theorem yields_addExternal {id : String} {record : Record} :
    (addExternal id).Yields before record after ↔
      ∃ catalog disk, before.external.add id before.disk = (.ok record, catalog, disk) ∧
        after = { before with external := catalog, disk := disk } := by
  unfold Yields addExternal
  rw [perform_ofAction]
  cases before.external.add id before.disk with
  | mk outcome rest =>
    obtain ⟨catalog, disk⟩ := rest
    simp only [Prod.mk.injEq]
    constructor
    · rintro ⟨same, result⟩
      exact ⟨catalog, disk, ⟨same, rfl, rfl⟩, result.symm⟩
    · rintro ⟨_, _, ⟨same, sameCatalog, sameDisk⟩, result⟩
      rw [sameCatalog, sameDisk]
      exact ⟨same, result.symm⟩

theorem yields_updateExternal {id : String} {change : Record → Record} {record : Record} :
    (updateExternal id change).Yields before record after ↔
      ∃ catalog disk,
        before.external.update id change before.disk = (.ok record, catalog, disk) ∧
        after = { before with external := catalog, disk := disk } := by
  unfold Yields updateExternal
  rw [perform_ofAction]
  cases before.external.update id change before.disk with
  | mk outcome rest =>
    obtain ⟨catalog, disk⟩ := rest
    simp only [Prod.mk.injEq]
    constructor
    · rintro ⟨same, result⟩
      exact ⟨catalog, disk, ⟨same, rfl, rfl⟩, result.symm⟩
    · rintro ⟨_, _, ⟨same, sameCatalog, sameDisk⟩, result⟩
      rw [sameCatalog, sameDisk]
      exact ⟨same, result.symm⟩

/-- Whatever becomes of it, a step on a catalog leaves what the catalog and the disk become. -/
theorem perform_addForeign {id : String} {outcome : Except Failure Record}
    (ran : (addForeign id).perform before = (outcome, after)) :
    ∃ catalog disk, before.foreign.add id before.disk = (outcome, catalog, disk) ∧
      after = { before with foreign := catalog, disk := disk } := by
  obtain ⟨rfl, rfl⟩ := Prod.mk.inj ran
  exact ⟨_, _, rfl, rfl⟩

theorem perform_updateForeign {id : String} {change : Record → Record}
    {outcome : Except Failure Record}
    (ran : (updateForeign id change).perform before = (outcome, after)) :
    ∃ catalog disk, before.foreign.update id change before.disk = (outcome, catalog, disk) ∧
      after = { before with foreign := catalog, disk := disk } := by
  obtain ⟨rfl, rfl⟩ := Prod.mk.inj ran
  exact ⟨_, _, rfl, rfl⟩

theorem perform_addExternal {id : String} {outcome : Except Failure Record}
    (ran : (addExternal id).perform before = (outcome, after)) :
    ∃ catalog disk, before.external.add id before.disk = (outcome, catalog, disk) ∧
      after = { before with external := catalog, disk := disk } := by
  obtain ⟨rfl, rfl⟩ := Prod.mk.inj ran
  exact ⟨_, _, rfl, rfl⟩

theorem perform_updateExternal {id : String} {change : Record → Record}
    {outcome : Except Failure Record}
    (ran : (updateExternal id change).perform before = (outcome, after)) :
    ∃ catalog disk, before.external.update id change before.disk = (outcome, catalog, disk) ∧
      after = { before with external := catalog, disk := disk } := by
  obtain ⟨rfl, rfl⟩ := Prod.mk.inj ran
  exact ⟨_, _, rfl, rfl⟩

theorem perform_onDisk {action : Disk → Except Failure α × Disk} {outcome : Except Failure α}
    (ran : (onDisk action).perform before = (outcome, after)) :
    ∃ disk, action before.disk = (outcome, disk) ∧ after = { before with disk := disk } := by
  obtain ⟨rfl, rfl⟩ := Prod.mk.inj ran
  exact ⟨_, rfl, rfl⟩

theorem yields_fetch {remote : Remote} {name text : String} :
    (fetch remote name).Yields before text after ↔
      ∃ disk, remote.fetch name before.disk = (.ok text, disk) ∧
        after = { before with disk := disk, journal := before.journal ++ [.source name] } := by
  unfold Yields fetch
  rw [perform_ofAction]
  cases remote.fetch name before.disk with
  | mk outcome disk =>
    simp only [Prod.mk.injEq]
    constructor
    · rintro ⟨same, result⟩
      exact ⟨disk, ⟨same, rfl⟩, result.symm⟩
    · rintro ⟨_, ⟨same, sameDisk⟩, result⟩
      rw [sameDisk]
      exact ⟨same, result.symm⟩

theorem yields_parse {remote : Remote} {id source text : String} :
    (parse remote id source).Yields before text after ↔
      remote.parse id source = .ok text ∧
        after = { before with journal := before.journal ++ [.document id] } := by
  unfold Yields parse
  rw [perform_ofAction]
  simp only [Prod.mk.injEq]
  constructor
  · rintro ⟨same, result⟩
    exact ⟨same, result.symm⟩
  · rintro ⟨same, result⟩
    exact ⟨same, result.symm⟩

/-- How asking for the table ends: with the text in the slot, with that of the store, which goes
into the slot, or with the failure of the store. -/
inductive Tables (remote : Remote) (before : Workspace) :
    Except Failure HashTable → Workspace → Prop
  | kept {text : String} {outcome : Except Failure HashTable}
      (filled : before.slot.text = some text) (reads : HashTable.ofText text = outcome) :
      Tables remote before outcome before
  | loaded {text : String} {outcome : Except Failure HashTable}
      (empty : before.slot.text = none) (answers : remote.table before.disk = .ok text)
      (reads : HashTable.ofText text = outcome) :
      Tables remote before outcome
        { before with slot := ⟨some text⟩, journal := before.journal ++ [.table] }
  | refused {failure : Failure} (empty : before.slot.text = none)
      (answers : remote.table before.disk = .error failure) :
      Tables remote before (.error failure) { before with journal := before.journal ++ [.table] }

theorem perform_table_iff {remote : Remote} {outcome : Except Failure HashTable} :
    (Step.table remote).perform before = (outcome, after) ↔ Tables remote before outcome after := by
  constructor
  · intro ran
    unfold Step.table at ran
    rw [perform_ofAction] at ran
    unfold TableSlot.table TableSlot.load at ran
    cases filled : before.slot.text with
    | some text =>
      simp only [filled, Bool.false_eq_true, if_false] at ran
      obtain ⟨reads, rfl⟩ := Prod.mk.inj ran
      exact .kept filled reads
    | none =>
      cases answers : remote.table before.disk with
      | ok text =>
        simp only [filled, answers, if_true] at ran
        obtain ⟨reads, rfl⟩ := Prod.mk.inj ran
        exact .loaded filled answers reads
      | error failure =>
        simp only [filled, answers, if_true] at ran
        obtain ⟨rfl, rfl⟩ := Prod.mk.inj ran
        exact .refused filled answers
  · intro ends
    unfold Step.table
    rw [perform_ofAction]
    unfold TableSlot.table TableSlot.load
    cases ends with
    | kept filled reads => simp only [filled, reads, Bool.false_eq_true, if_false]
    | loaded empty answers reads => simp only [empty, answers, reads, if_true]
    | refused empty answers => simp only [empty, answers, if_true]

/-- Asking for the table changes neither the disk nor a catalog. -/
theorem table_frame {remote : Remote} {outcome : Except Failure HashTable}
    (ran : (Step.table remote).perform before = (outcome, after)) :
    ∃ slot journal, after = { before with slot := slot, journal := journal } ∧
      (journal = before.journal ∨ journal = before.journal ++ [.table]) := by
  cases perform_table_iff.1 ran with
  | kept => exact ⟨_, _, rfl, Or.inl rfl⟩
  | loaded | refused => exact ⟨_, _, rfl, Or.inr rfl⟩

/-! ## Kept properties -/

/-- A step that succeeds where a property holds leads to where it holds. -/
def Keeps (step : Step α) (holds : Workspace → Prop) : Prop :=
  ∀ before value after, holds before → step.Yields before value after → holds after

namespace Keeps

variable {holds : Workspace → Prop}

theorem pure {value : α} : (Pure.pure value : Step α).Keeps holds := by
  intro before result after here ran
  rw [← (yields_pure.1 ran).2]
  exact here

theorem look {view : Workspace → α} : (Step.look view).Keeps holds := by
  intro before result after here ran
  rw [← (yields_look.1 ran).2]
  exact here

theorem ofOutcome {outcome : Except Failure α} : (Step.ofOutcome outcome).Keeps holds := by
  intro before result after here ran
  rw [← (yields_ofOutcome.1 ran).2]
  exact here

theorem load {path : Path} : (Step.load path).Keeps holds := by
  intro before result after here ran
  rw [← (yields_load.1 ran).2]
  exact here

theorem fail {failure : Failure} : (Step.fail failure : Step α).Keeps holds :=
  fun _ _ _ _ ran => absurd ran yields_fail

theorem bind {step : Step α} {next : α → Step β} (first : step.Keeps holds)
    (second : ∀ value, (next value).Keeps holds) : (step >>= next).Keeps holds := by
  intro before result after here ran
  obtain ⟨value, between, ranFirst, ranSecond⟩ := yields_bind.1 ran
  exact second value between result after (first before value between here ranFirst) ranSecond

theorem ite {condition : Prop} [Decidable condition] {first second : Step α}
    (whenTrue : first.Keeps holds) (whenFalse : second.Keeps holds) :
    (if condition then first else second).Keeps holds := by
  split
  · exact whenTrue
  · exact whenFalse

end Keeps

end EoAssembly.Step
