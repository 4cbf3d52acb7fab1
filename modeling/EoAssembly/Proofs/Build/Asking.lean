import EoAssembly.Proofs.Build.Chosen
import EoAssembly.Proofs.Build.Throughout
import EoAssembly.Proofs.CommitHash.Tabled

/-!
Contract: how a pull asks for the table, and what it pins a name to.

The text of the table is asked for when a version is needed and neither the pull nor the slot
has it.  Once it was given it stays in the slot.  A name with a version is pinned to the short
hash of that version in the text of the slot; one without a version is pinned to nothing, and
asks for nothing.

Owns `PinsTo`, `Asks`, `Offers`, and what pinning a name leaves wherever it stops.
-/

namespace EoAssembly.Build

universe u v

variable {α : Type u} {β : Type v} {remote : Remote} {known : Option HashTable} {name version text : String}
  {before between after : Workspace} {table : HashTable} {hash : Option String}
  {first second third : TableSlot} {gained more : List Request} {failure : Failure}

/-- What a name is pinned to by the table in a slot: nothing when it has no version, else the first
seven characters of the hash in the last row of its version. -/
def PinsTo (slot : TableSlot) (name : String) (hash : Option String) : Prop :=
  match (ObjectName.split name).2 with
  | none => hash = none
  | some version => ∃ text full, slot.text = some text ∧
      HashTable.lastHash? version (Text.lines text) = some full ∧
      CommitHash.shortLength ≤ full.toList.length ∧
      hash = some (String.ofList (full.toList.take CommitHash.shortLength))

/-- How often the text of the table was asked for, what became of it, and of the slot. -/
inductive Asks (remote : Remote) (before after : TableSlot) (gained : List Request)
    (outcome : Except Failure α) : Prop where
  | unasked (never : .table ∉ gained) (same : after = before)
  | given (once : gained.count .table = 1) (empty : before.text = none) (disk : Disk) (text : String)
    (answers : remote.table disk = .ok text) (filled : after.text = some text)
  | refused (once : gained.count .table = 1) (empty : before.text = none) (disk : Disk)
    (failure : Failure) (answers : remote.table disk = .error failure) (same : after = before)
    (ended : outcome = .error failure)

/-- The table that is there, or else the one that is asked for, has a text. -/
def Offers (remote : Remote) (present : Workspace) (text : String) : Prop :=
  present.slot.text = some text ∨ present.slot.text = none ∧ remote.table present.disk = .ok text

namespace Asks

variable {outcome : Except Failure α} {last : Except Failure β}

/-- A slot that is filled is asked for nothing, and stays. -/
theorem of_filled (asks : Asks remote first second gained outcome) (filled : first.text = some text) :
    .table ∉ gained ∧ second = first := by
  cases asks with
  | unasked never same => exact ⟨never, same⟩
  | given _ empty => exact absurd (empty.symm.trans filled) (by simp)
  | refused _ empty => exact absurd (empty.symm.trans filled) (by simp)

/-- A text that is there stays. -/
theorem keeps (asks : Asks remote first second gained outcome) (filled : first.text = some text) :
    second.text = some text := by
  rw [(asks.of_filled filled).2]
  exact filled

theorem count_le (asks : Asks remote first second gained outcome) : gained.count .table ≤ 1 := by
  cases asks with
  | unasked never => rw [List.count_eq_zero.2 never]; exact Nat.zero_le 1
  | given once => exact Nat.le_of_eq once
  | refused once => exact Nat.le_of_eq once

/-- After a step that succeeded the next one asks only when nothing was given. -/
theorem trans {value : α} (asks : Asks remote first second gained (.ok value : Except Failure α))
    (later : Asks remote second third more last) : Asks remote first third (gained ++ more) last := by
  cases asks with
  | unasked never same =>
    subst same
    have count : (gained ++ more).count .table = more.count .table := by
      rw [List.count_append, List.count_eq_zero.2 never, Nat.zero_add]
    cases later with
    | unasked neverLater same => exact .unasked (by simp [never, neverLater]) same
    | given once empty disk text answers filled =>
      exact .given (count.trans once) empty disk text answers filled
    | refused once empty disk failure answers same ended =>
      exact .refused (count.trans once) empty disk failure answers same ended
  | given once empty disk text answers filled =>
    obtain ⟨never, same⟩ := later.of_filled filled
    refine .given ?_ empty disk text answers (same ▸ filled)
    rw [List.count_append, once, List.count_eq_zero.2 never]
  | refused _ _ _ _ _ _ ended => exact absurd ended (by simp)

/-- What follows a step matters only when the text was refused. -/
theorem become (asks : Asks remote first second gained outcome)
    (ended : ∀ failure, outcome = .error failure → last = .error failure) :
    Asks remote first second gained last := by
  cases asks with
  | unasked never same => exact .unasked never same
  | given once empty disk text answers filled => exact .given once empty disk text answers filled
  | refused once empty disk failure answers same isError =>
    exact .refused once empty disk failure answers same (ended failure isError)

end Asks

theorem PinsTo.later (pins : PinsTo first name hash)
    (kept : ∀ text, first.text = some text → second.text = some text) : PinsTo second name hash := by
  unfold PinsTo at pins ⊢
  split at pins
  · exact pins
  · obtain ⟨text, full, filled, rest⟩ := pins
    exact ⟨text, full, kept text filled, rest⟩

/-- What a table of a slot gives for the version of a name is what the name is pinned to. -/
theorem pinsTo_of_get (isVersion : (ObjectName.split name).2 = some version)
    (filled : first.text = some text) (read : HashTable.ofText text = .ok table) {short : String}
    (got : table.get version = .ok short) : PinsTo first name (some short) := by
  unfold PinsTo
  rw [isVersion]
  rw [HashTable.get_ofText read] at got
  cases found : HashTable.lastHash? version (Text.lines text) with
  | none =>
    rw [found] at got
    exact absurd got (by simp)
  | some full =>
    rw [found] at got
    obtain ⟨long, same⟩ := CommitHash.of_narrow_ok got
    exact ⟨text, full, filled, found, long, congrArg some same⟩

/-! ## Pinning a name, wherever it stops -/

/-- Asking for the table changes the slot and the journal alone. -/
theorem table_any {outcome : Except Failure HashTable}
    (ran : (Step.table remote).perform before = (outcome, after)) :
    ∃ gained, after = { before with slot := after.slot, journal := before.journal ++ gained } ∧
      (∀ request ∈ gained, request = .table) ∧
      Asks remote before.slot after.slot gained outcome ∧
      ∀ table, outcome = .ok table → Knows (some table) after.slot := by
  cases Step.perform_table_iff.1 ran with
  | @kept text _ filled reads =>
    refine ⟨[], by simp, by simp, .unasked (by simp) rfl, fun table same other isOther => ?_⟩
    exact ⟨text, filled, Option.some.inj isOther ▸ reads.trans same⟩
  | @loaded text _ empty answers reads =>
    refine ⟨[.table], rfl, by simp, .given (by decide) empty before.disk text answers rfl,
      fun table same other isOther => ?_⟩
    exact ⟨text, rfl, Option.some.inj isOther ▸ reads.trans same⟩
  | refused empty answers =>
    exact ⟨[.table], rfl, by simp, .refused (by decide) empty before.disk _ answers rfl rfl, by simp⟩

/-- A table that is known is asked for no more. -/
theorem tableFor_any (knows : Knows known before.slot) {outcome : Except Failure HashTable}
    (ran : (tableFor remote known).perform before = (outcome, after)) :
    ∃ gained, after = { before with slot := after.slot, journal := before.journal ++ gained } ∧
      (∀ request ∈ gained, request = .table) ∧
      Asks remote before.slot after.slot gained outcome ∧
      ∀ table, outcome = .ok table → Knows (some table) after.slot := by
  unfold tableFor at ran
  cases known with
  | none => exact table_any ran
  | some table =>
    obtain ⟨rfl, rfl⟩ := Prod.mk.inj ran
    refine ⟨[], by simp, by simp, .unasked (by simp) rfl, fun other same => ?_⟩
    rw [← Except.ok.inj same]
    exact knows

/-- Pinning a name changes the slot and the journal alone, and nothing when the name has no version. -/
theorem pinned_any (knows : Knows known before.slot)
    {outcome : Except Failure (Option String × Option HashTable)}
    (ran : (pinned remote known name).perform before = (outcome, after)) :
    ∃ gained, after = { before with slot := after.slot, journal := before.journal ++ gained } ∧
      (∀ request ∈ gained, request = .table) ∧
      ((ObjectName.split name).2 = none → gained = []) ∧
      Asks remote before.slot after.slot gained outcome ∧
      ∀ hash table, outcome = .ok (hash, table) →
        PinsTo after.slot name hash ∧ Knows table after.slot := by
  unfold pinned at ran
  cases isVersion : (ObjectName.split name).2 with
  | none =>
    rw [isVersion] at ran
    obtain ⟨rfl, rfl⟩ := Prod.mk.inj ran
    refine ⟨[], by simp, by simp, fun _ => rfl, .unasked (by simp) rfl, fun hash table same => ?_⟩
    obtain ⟨rfl, rfl⟩ := Prod.mk.inj (Except.ok.inj same)
    unfold PinsTo
    rw [isVersion]
    exact ⟨rfl, knows⟩
  | some version =>
    rw [isVersion] at ran
    rcases Step.ends_bind ran with ⟨failure, failed, rfl⟩ | ⟨table, ready, yields, ranHash⟩
    · obtain ⟨gained, isReady, only, asks, _⟩ := tableFor_any knows failed
      exact ⟨gained, isReady, only, by simp, asks.become (by simp), by simp⟩
    · obtain ⟨gained, isReady, only, asks, knowsTable⟩ := tableFor_any knows yields
      have filled := knowsTable table rfl
      obtain ⟨answer, got, rfl⟩ := Step.ends_map ranHash
      obtain ⟨rfl, rfl⟩ := Prod.mk.inj got
      refine ⟨gained, isReady, only, by simp, asks.become (by simp), fun hash other same => ?_⟩
      cases got : table.get version with
      | error failure =>
        rw [got] at same
        exact absurd same (by simp [Except.map])
      | ok short =>
        rw [got] at same
        obtain ⟨rfl, rfl⟩ := Prod.mk.inj (Except.ok.inj same)
        obtain ⟨text, isText, read⟩ := filled table rfl
        exact ⟨pinsTo_of_get isVersion isText read got, filled⟩

/-- A version that the table refuses ends the pinning, which touches no file and no record. -/
theorem pinned_refused (knows : Knows known before.slot)
    (isVersion : (ObjectName.split name).2 = some version) (offers : Offers remote before text)
    (read : HashTable.ofText text = .ok table) (refused : table.get version = .error failure) :
    ((pinned remote known name).perform before).1 = .error failure := by
  have answers : ∃ ready, (tableFor remote known).Yields before table ready := by
    cases known with
    | some other =>
      obtain ⟨held, filled, readHeld⟩ := knows other rfl
      have same : held = text := by
        rcases offers with here | ⟨empty, _⟩
        · exact Option.some.inj (filled.symm.trans here)
        · exact absurd (empty.symm.trans filled) (by simp)
      rw [same, read] at readHeld
      exact ⟨before, yields_tableFor.2 (Or.inl ⟨congrArg some (Except.ok.inj readHeld).symm, rfl⟩)⟩
    | none =>
      rcases offers with filled | ⟨empty, answers⟩
      · exact ⟨before, yields_tableFor.2 (Or.inr ⟨rfl, table_filled filled read⟩)⟩
      · exact ⟨_, yields_tableFor.2
          (Or.inr ⟨rfl, Step.perform_table_iff.2 (.loaded empty answers read)⟩)⟩
  obtain ⟨ready, yields⟩ := answers
  unfold pinned
  rw [isVersion]
  simp only
  rw [Step.perform_bind_of_yields yields, Step.perform_bind, refused]
  rfl

end EoAssembly.Build
