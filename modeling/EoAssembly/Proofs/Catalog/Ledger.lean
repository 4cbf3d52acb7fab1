import EoAssembly.Proofs.Catalog.Durable

/-!
Contract: a catalog whose writes succeed is a persistent finite map, also across stops.

Calls on a catalog answer as calls on a map from ids to records do.  After every call
the file opens as the same map, and when the process stops within a call, even while it
writes the sibling file, the file opens as the map from before the call or as the one
from after it.  Opening a catalog may exchange a path for another one with the same
components; nothing else that a program can see is exchanged.

Owns `Call`, the map semantics of calls, the disks that a stop may leave, and the
refinement of whole histories.
-/

namespace EoAssembly

namespace Disk

variable {disk next : Disk} {path : Path} {content : FileContent}

/-- A write touches the goal of its path at most, whatever it writes. -/
theorem touches_writeFile (sound : disk.Sound) {outcome : Except Refusal Unit}
    (ran : disk.writeFile path content = (outcome, next)) :
    Touches [path.goal disk.current] [] [] disk next := by
  have moved := touches_takeOutage sound
  unfold writeFile at ran
  generalize taken : disk.takeOutage = answer at ran
  obtain ⟨forced, ready⟩ := answer
  rw [taken] at moved
  simp only at ran
  have waited : Touches [path.goal disk.current] [] [] disk ready :=
    moved.mono (by simp) (by simp) (by simp)
  split at ran
  · rw [← (Prod.mk.inj ran).2]
    exact waited
  · split at ran
    · rw [← (Prod.mk.inj ran).2]
      exact waited
    · next location writable =>
      obtain ⟨_, _, here, parent, noDirectory⟩ := writableAt_ok writable
      obtain ⟨put, _⟩ := touches_put_file moved.sound content parent noDirectory
      rw [moved.current] at here
      rw [← (Prod.mk.inj ran).2, ← here]
      exact (moved.mono (by simp) (by simp) (by simp)).trans put

end Disk

namespace Catalog

open Disk (Touches)

variable {catalog after stored : Catalog} {disk next left start : Disk} {path : Path}
  {record : Record}

/-! ## Calls and stops -/

/-- A call on a catalog. -/
inductive Call where
  | edit (edit : Edit)
  | get (id : String)
  | contains (id : String)
  | notDiscovered
  | reopen

/-- What a call answers. -/
inductive Answer where
  | record (record : Record)
  | present (known : Bool)
  | records (records : List Record)
  | opened

/-- The answer of a call, the catalog in memory afterwards, and the disk. -/
def Call.perform (call : Call) (catalog : Catalog) (disk : Disk) :
    Except Failure Answer × Catalog × Disk :=
  match call with
  | .edit wanted =>
    match wanted.perform catalog disk with
    | (outcome, after, next) => (outcome.map .record, after, next)
  | .get id => ((catalog.get id).map .record, catalog, disk)
  | .contains id => (.ok (.present (catalog.contains id)), catalog, disk)
  | .notDiscovered => (.ok (.records catalog.notDiscovered), catalog, disk)
  | .reopen =>
    match openAt disk catalog.path with
    | .ok opened => (.ok .opened, opened, disk)
    | .error failure => (.error failure, catalog, disk)

/-- The catalog that a call writes, if it writes. -/
def Call.target? (call : Call) (catalog : Catalog) : Option Catalog :=
  match call with
  | .edit wanted => wanted.target? catalog
  | _ => none

/-- The write of a call, if there is one, succeeds. -/
def Call.Succeeds (call : Call) (catalog : Catalog) (disk : Disk) : Prop :=
  ∀ target, call.target? catalog = some target → (target.persist disk).1 = .ok ()

/-- The disks that a process may leave that stops while it writes a catalog: nothing happened
yet, some of the directories are there, the sibling holds something or other, or all is done. -/
inductive Stopped (catalog : Catalog) (disk : Disk) : Disk → Prop where
  | before : Stopped catalog disk disk
  | directories {parent : Path} (isParent : catalog.path.parent? = some parent) (count : Nat) :
      Stopped catalog disk (disk.createAlong disk.current (parent.components.take count)).2
  | sibling {ready : Disk} (created : disk.createParent catalog.path = (.ok (), ready))
      (content : FileContent) : Stopped catalog disk (ready.writeFile catalog.sibling content).2
  | finished : Stopped catalog disk (catalog.persist disk).2

/-- The disks that a process may leave that stops within a call. -/
def Call.Leaves (call : Call) (catalog : Catalog) (disk left : Disk) : Prop :=
  left = disk ∨ ∃ target, call.target? catalog = some target ∧ Stopped target disk left

/-! ## The map -/

/-- A map from ids to records. -/
abbrev Ledger := String → Option Record

namespace Ledger

variable {ledger later third : Ledger}

/-- The map with a record under its id. -/
def set (ledger : Ledger) (record : Record) : Ledger := fun id =>
  if id = record.id then some record else ledger id

/-- Two maps hold the same records, where paths agree by their components. -/
def Alike (ledger later : Ledger) : Prop := ∀ id, Option.Rel Record.Same (ledger id) (later id)

/-- What a call answers on a map and what it makes of the map. -/
inductive Answers : Call → Ledger → Except Failure Answer → Ledger → Prop where
  | addKnown {ledger : Ledger} {id : String} {record : Record} (known : ledger id = some record) :
      Answers (.edit (.add id)) ledger (.ok (.record record)) ledger
  | addFresh {ledger : Ledger} {id : String} (missing : ledger id = none) :
      Answers (.edit (.add id)) ledger (.ok (.record (.ofId id))) (ledger.set (.ofId id))
  | updateKnown {ledger : Ledger} {id : String} {before : Record} (change : Change)
      (known : ledger id = some before) :
      Answers (.edit (.update id change)) ledger
        (.ok (.record { change.apply before with id := id }))
        (ledger.set { change.apply before with id := id })
  | updateMissing {ledger : Ledger} {id : String} (change : Change) (missing : ledger id = none) :
      Answers (.edit (.update id change)) ledger (.error (.notFound id)) ledger
  | getKnown {ledger : Ledger} {id : String} {record : Record} (known : ledger id = some record) :
      Answers (.get id) ledger (.ok (.record record)) ledger
  | getMissing {ledger : Ledger} {id : String} (missing : ledger id = none) :
      Answers (.get id) ledger (.error (.notFound id)) ledger
  | contains (ledger : Ledger) (id : String) :
      Answers (.contains id) ledger (.ok (.present (ledger id).isSome)) ledger
  | notDiscovered {ledger : Ledger} {records : List Record}
      (ascending : Ordered.Ascending Record.id records)
      (exactly : ∀ record, record ∈ records ↔
        ledger record.id = some record ∧ record.discovered = none) :
      Answers .notDiscovered ledger (.ok (.records records)) ledger
  | reopen {ledger later : Ledger} (alike : later.Alike ledger) :
      Answers .reopen ledger (.ok .opened) later

end Ledger

/-! ## Histories -/

/-- What happens to a catalog: a call is answered, or the process stops within it and the
catalog is opened again. -/
inductive Event where
  | answered (call : Call) (answer : Except Failure Answer)
  | stopped (call : Call)

/-- A history of a catalog, from the first time it is opened. -/
inductive Lives (path : Path) (start : Disk) : List Event → Catalog → Disk → Prop where
  | opened {catalog : Catalog} (opens : openAt start path = .ok catalog) :
      Lives path start [] catalog start
  | answered {events : List Event} {catalog after : Catalog} {disk next : Disk} {call : Call}
      {answer : Except Failure Answer} (earlier : Lives path start events catalog disk)
      (succeeds : call.Succeeds catalog disk)
      (ran : call.perform catalog disk = (answer, after, next)) :
      Lives path start (events ++ [.answered call answer]) after next
  | stopped {events : List Event} {catalog reopened : Catalog} {disk left : Disk} {call : Call}
      (earlier : Lives path start events catalog disk) (leaves : call.Leaves catalog disk left)
      (opens : openAt left path = .ok reopened) :
      Lives path start (events ++ [.stopped call]) reopened left

/-- The same history on a map: a stop leaves the map from before or from after its call. -/
inductive Ledger.Lives : List Event → Ledger → Prop where
  | opened : Ledger.Lives [] fun _ => none
  | answered {events : List Event} {ledger later : Ledger} {call : Call}
      {answer : Except Failure Answer} (earlier : Ledger.Lives events ledger)
      (answers : Ledger.Answers call ledger answer later) :
      Ledger.Lives (events ++ [.answered call answer]) later
  | stoppedBefore {events : List Event} {ledger later : Ledger} (call : Call)
      (earlier : Ledger.Lives events ledger) (alike : later.Alike ledger) :
      Ledger.Lives (events ++ [.stopped call]) later
  | stoppedAfter {events : List Event} {ledger last later : Ledger} {call : Call}
      {answer : Except Failure Answer} (earlier : Ledger.Lives events ledger)
      (answers : Ledger.Answers call ledger answer last) (alike : later.Alike last) :
      Ledger.Lives (events ++ [.stopped call]) later

/-! ## What stands in the place of the file -/

/-- Nothing stands in the place of the file of an empty catalog, or the records do. -/
def Stands (path : Path) (stored : Catalog) (disk : Disk) : Prop :=
  (stored.records = [] ∧ disk.entryAt? (path.goal disk.current) = none) ∨
    (disk.Passable path ∧
      disk.entryAt? (path.goal disk.current) = some (.file (.text stored.render)))

section Stands

variable {base : Location}

theorem Stands.entry (stands : Stands path stored disk) (ends : path.EndsInName) :
    (stored.records = [] ∧ disk.entry? path = none) ∨
      disk.entry? path = some (.file (.text stored.render)) := by
  rcases stands with ⟨empty, nothing⟩ | ⟨way, file⟩
  · refine Or.inl ⟨empty, ?_⟩
    cases there : disk.entry? path with
    | none => rfl
    | some entry =>
      rw [(Disk.entry_eq_some there).2.2] at nothing
      exact absurd nothing (by simp)
  · rw [Disk.entry_of_name ends way]
    exact Or.inr file

/-- What stands in the place of the file opens as the records. -/
theorem Stands.opens (stands : Stands path stored disk) (ends : path.EndsInName)
    (isPath : stored.path = path) (fit : stored.Fit) : openAt disk path = .ok stored := by
  rcases stands.entry ends with ⟨empty, nothing⟩ | file
  · rw [openAt_missing (Disk.not_exists?_iff.2 nothing), ← isPath, ← empty]
  · rw [← isPath] at file ⊢
    exact openAt_stands fit.sorted (fun record member => (fit.storable record member).textual)
      (fun record member => (fit.storable record member).countable) file

/-- The rows of the file are the records in order. -/
theorem Stands.rows (stands : Stands path stored disk) (ends : path.EndsInName) (fit : stored.Fit)
    {text : String} (read : disk.readText path = .ok text) :
    Record.allOfText? text = some stored.records := by
  rw [Disk.readText_eq_ok] at read
  rcases stands.entry ends with ⟨_, nothing⟩ | file
  · rw [nothing] at read
    exact absurd read (by simp)
  · rw [file] at read
    simp only [Option.some.injEq, Entry.file.injEq, FileContent.text.injEq] at read
    rw [← read]
    unfold render
    rw [Record.allOfText?_renderAll fun record member => (fit.storable record member).textual,
      if_pos fun record member => (fit.storable record member).countable]

theorem Stands.later {written gone made : List Location} (stands : Stands path stored disk)
    (touches : Touches written gone made disk next)
    (kept : next.entryAt? (path.goal disk.current) = disk.entryAt? (path.goal disk.current)) :
    Stands path stored next := by
  unfold Stands
  rw [touches.current, kept]
  exact stands.imp_right (And.imp_left touches.passable)

theorem stands_persisted (sound : disk.Sound) (written : catalog.path.IsText)
    (ran : catalog.persist disk = (.ok (), next)) : Stands catalog.path catalog next := by
  obtain ⟨way, touches⟩ := persist_ok sound ran
  have apart := sibling_apart written (persist_endsInName ran) disk.current
  refine Or.inr ⟨way, ?_⟩
  rw [touches.current]
  exact (persist_stands sound apart ran).1

/-- A process that stops while it writes a catalog leaves the file alone, or has written it. -/
theorem Stopped.file (stopped : Stopped catalog disk left) (sound : disk.Sound)
    (housed : Housed catalog.path disk.current) :
    (∃ written gone made, Touches written gone made disk left ∧
      left.entryAt? (catalog.path.goal disk.current) =
        disk.entryAt? (catalog.path.goal disk.current)) ∨
      catalog.persist disk = (.ok (), left) := by
  have ⟨written, ends, above⟩ := housed
  have apart := ends.above_eq disk.current ▸ above
  cases stopped with
  | before => exact Or.inl ⟨[], [], [], Touches.refl sound, rfl⟩
  | @directories parent isParent count =>
    have enclosing : catalog.path.enclosing = parent.components := by
      unfold Path.enclosing
      rw [isParent]
    have touches : Touches [] [] _ disk
        (disk.createAlong disk.current (parent.components.take count)).2 :=
      Disk.touches_createAlong sound sound.current rfl
    refine Or.inl ⟨_, _, _, touches, touches.untouched (by simp) (by simp) fun reached => apart ?_⟩
    rw [enclosing, ← List.take_append_drop count parent.components, Path.wayFrom_append]
    exact List.mem_append_left _ reached
  | @sibling ready created content =>
    have first := Disk.touches_createParent sound created
    have second : Touches [catalog.sibling.goal disk.current] [] [] ready
        (ready.writeFile catalog.sibling content).2 := by
      rw [← first.current]
      exact Disk.touches_writeFile first.sound rfl
    refine Or.inl ⟨_, [], _, (first.mono (by simp) (by simp) (fun _ => id)).trans
      (second.mono (fun _ => id) (by simp) (by simp)), ?_⟩
    rw [← first.untouched (by simp) (by simp) apart]
    exact second.untouched (by simpa using Ne.symm (sibling_apart written ends _)) (by simp) (by simp)
  | finished =>
    generalize ran : catalog.persist disk = answer
    obtain ⟨outcome, next⟩ := answer
    cases outcome with
    | ok value => exact Or.inr rfl
    | error failure =>
      exact Or.inl ⟨_, _, _, touches_persist sound ends ran,
        persist_refused sound housed ran⟩

end Stands

/-! ## One call -/

section Call

variable {base : Location} {ledger later : Ledger} {call : Call} {answer : Except Failure Answer}

/-- A catalog holds the records of a map, and so does its file. -/
structure Keeps (path : Path) (base : Location) (catalog : Catalog) (disk : Disk)
    (ledger : Ledger) : Prop where
  isPath : catalog.path = path
  fit : catalog.Fit
  sound : disk.Sound
  current : disk.current = base
  housed : Housed path base
  lookup : ∀ id, catalog.find? id = ledger id
  file : ∃ stored, stored.path = path ∧ stored.Fit ∧ stored.Alike catalog ∧ Stands path stored disk

theorem find?_put (catalog : Catalog) (record : Record) (id : String) :
    (catalog.put record).find? id = Ledger.set catalog.find? record id := by
  unfold Ledger.set
  by_cases same : id = record.id
  · rw [if_pos same, same]
    exact find?_put_same catalog record
  · rw [if_neg same]
    exact find?_put_other catalog (Ne.symm same)

/-- What an edit answers, and the record that it puts, are those of the map. -/
theorem Ledger.answers_edit {edit : Edit} {outcome : Except Failure Record}
    (succeeds : (Call.edit edit).Succeeds catalog disk)
    (became : edit.Becomes catalog disk outcome after next) :
    Ledger.Answers (.edit edit) catalog.find? (outcome.map .record) after.find? := by
  have put : ∀ record, edit.record? catalog = some record →
      Ledger.Answers (.edit edit) catalog.find? (.ok (.record record))
        (Ledger.set catalog.find? record) := by
    intro record given
    cases edit with
    | add id =>
      have isRecord := Option.some.inj given
      cases found : catalog.find? id with
      | none =>
        rw [found, Option.getD_none] at isRecord
        rw [← isRecord]
        exact .addFresh found
      | some before =>
        rw [found, Option.getD_some] at isRecord
        rw [← isRecord]
        have unchanged : Ledger.set catalog.find? before = catalog.find? := by
          funext other
          unfold Ledger.set
          split
          · next same => rw [same, id_of_find? found, found]
          · rfl
        rw [unchanged]
        exact .addKnown found
    | update id change =>
      obtain ⟨before, found, isRecord⟩ := Option.map_eq_some_iff.1 given
      rw [← isRecord]
      exact .updateKnown change found
  cases became with
  | unknown missing none_ =>
    cases edit with
    | add id => exact absurd none_ (by simp [Edit.record?])
    | update id change => exact .updateMissing change missing
  | @idle record before given found same =>
    rw [funext (find?_put catalog record)]
    exact put record given
  | @written record next given target ran =>
    rw [funext (find?_put catalog record)]
    exact put record given
  | @refused record failure next given target ran =>
    have wrote := succeeds _ target
    rw [ran] at wrote
    exact absurd wrote (by simp)

/-- An edit that succeeds keeps the catalog and its file together. -/
theorem Keeps.edit (keeps : Keeps path base catalog disk ledger) {edit : Edit}
    {outcome : Except Failure Record} (succeeds : (Call.edit edit).Succeeds catalog disk)
    (became : edit.Becomes catalog disk outcome after next) :
    Keeps path base after next after.find? := by
  obtain ⟨stored, isPath, fit, alike, stands⟩ := keeps.file
  cases became with
  | unknown =>
    exact ⟨keeps.isPath, keeps.fit, keeps.sound, keeps.current, keeps.housed, fun _ => rfl,
      stored, isPath, fit, alike, stands⟩
  | @idle record before given found same =>
    rw [← Edit.subject_record? given] at found
    have alikeNow := alike.trans (alike_put keeps.fit.sorted found same).symm
    exact ⟨keeps.isPath, keeps.fit.put (Edit.storable_record? keeps.fit given), keeps.sound,
      keeps.current, keeps.housed, fun _ => rfl, stored, isPath, fit, alikeNow, stands⟩
  | @written record next given target ran =>
    have fitNow := keeps.fit.put (Edit.storable_record? keeps.fit given)
    have isPathNow : (catalog.put record).path = path := keeps.isPath
    have touches := (persist_ok keeps.sound ran).2
    have standsNow := stands_persisted keeps.sound (isPathNow ▸ keeps.housed.written) ran
    rw [isPathNow] at standsNow
    exact ⟨isPathNow, fitNow, touches.sound, touches.current.trans keeps.current, keeps.housed,
      fun _ => rfl, _, isPathNow, fitNow, Alike.refl _, standsNow⟩
  | @refused record failure next given target ran =>
    have wrote := succeeds _ target
    rw [ran] at wrote
    exact absurd wrote (by simp)

/-- A catalog that is opened again holds the records of its file. -/
theorem Keeps.reopen (keeps : Keeps path base catalog disk ledger) :
    ∃ stored, openAt disk path = .ok stored ∧ Ledger.Alike stored.find? ledger ∧
      Keeps path base stored disk stored.find? := by
  obtain ⟨stored, isPath, fit, alike, stands⟩ := keeps.file
  have opens := stands.opens keeps.housed.ends isPath fit
  refine ⟨stored, opens, fun id => keeps.lookup id ▸ alike.find? id, isPath, fit, keeps.sound,
    keeps.current, keeps.housed, fun _ => rfl, stored, isPath, fit, Alike.refl stored, stands⟩

theorem Keeps.mem_iff (keeps : Keeps path base catalog disk ledger) :
    record ∈ catalog.records ↔ ledger record.id = some record := by
  rw [← keeps.lookup]
  exact ⟨find?_of_mem keeps.fit.sorted, mem_of_find?⟩

/-- A call whose write succeeds answers as on the map, and keeps the file. -/
theorem Keeps.perform (keeps : Keeps path base catalog disk ledger)
    (succeeds : call.Succeeds catalog disk)
    (ran : call.perform catalog disk = (answer, after, next)) :
    ∃ later, Ledger.Answers call ledger answer later ∧ Keeps path base after next later := by
  have isLedger : catalog.find? = ledger := funext keeps.lookup
  cases call with
  | edit edit =>
    generalize performed : edit.perform catalog disk = result
    obtain ⟨outcome, last, written⟩ := result
    have became := Edit.becomes keeps.fit.sorted performed
    unfold Call.perform at ran
    simp only [performed] at ran
    obtain ⟨rfl, rest⟩ := Prod.mk.inj ran
    obtain ⟨rfl, rfl⟩ := Prod.mk.inj rest
    exact ⟨_, isLedger ▸ Ledger.answers_edit succeeds became, keeps.edit succeeds became⟩
  | get id =>
    obtain ⟨rfl, rest⟩ := Prod.mk.inj ran
    obtain ⟨rfl, rfl⟩ := Prod.mk.inj rest
    refine ⟨ledger, ?_, keeps⟩
    unfold Catalog.get
    rw [keeps.lookup]
    cases found : ledger id with
    | none => exact .getMissing found
    | some record => exact .getKnown found
  | contains id =>
    obtain ⟨rfl, rest⟩ := Prod.mk.inj ran
    obtain ⟨rfl, rfl⟩ := Prod.mk.inj rest
    refine ⟨ledger, ?_, keeps⟩
    unfold Catalog.contains
    rw [keeps.lookup]
    exact .contains ledger id
  | notDiscovered =>
    obtain ⟨rfl, rest⟩ := Prod.mk.inj ran
    obtain ⟨rfl, rfl⟩ := Prod.mk.inj rest
    refine ⟨ledger, .notDiscovered (keeps.fit.sorted.filter _) fun record => ?_, keeps⟩
    unfold Catalog.notDiscovered
    rw [List.mem_filter, keeps.mem_iff, Option.isNone_iff_eq_none]
  | reopen =>
    obtain ⟨stored, opens, alike, kept⟩ := keeps.reopen
    unfold Call.perform at ran
    simp only [keeps.isPath, opens] at ran
    obtain ⟨rfl, rest⟩ := Prod.mk.inj ran
    obtain ⟨rfl, rfl⟩ := Prod.mk.inj rest
    exact ⟨_, .reopen alike, kept⟩

/-- When a process stops within a call the file opens as the map before the call or after it. -/
theorem Keeps.stop (keeps : Keeps path base catalog disk ledger)
    (leaves : call.Leaves catalog disk left) :
    ∃ reopened, openAt left path = .ok reopened ∧ Keeps path base reopened left reopened.find? ∧
      (Ledger.Alike reopened.find? ledger ∨
        ∃ answer later, Ledger.Answers call ledger answer later ∧
          Ledger.Alike reopened.find? later) := by
  have isLedger : catalog.find? = ledger := funext keeps.lookup
  rcases leaves with same | ⟨target, isTarget, stopped⟩
  · obtain ⟨stored, opens, alike, kept⟩ := keeps.reopen
    rw [same]
    exact ⟨stored, opens, kept, Or.inl alike⟩
  · cases call with
    | edit edit =>
      have isPath : target.path = path := by
        rw [← keeps.isPath]
        exact Edit.path_target? isTarget
      have housed : Housed target.path disk.current := by
        rw [isPath, keeps.current]
        exact keeps.housed
      rcases stopped.file keeps.sound housed with ⟨written, gone, made, touches, file⟩ | persisted
      · obtain ⟨stored, isPathStored, fit, alike, stands⟩ := keeps.file
        rw [isPath] at file
        have keepsLeft : Keeps path base catalog left ledger :=
          ⟨keeps.isPath, keeps.fit, touches.sound, touches.current.trans keeps.current, keeps.housed,
            keeps.lookup, stored, isPathStored, fit, alike, stands.later touches file⟩
        obtain ⟨reopened, opens, same, kept⟩ := keepsLeft.reopen
        exact ⟨reopened, opens, kept, Or.inl same⟩
      · have succeeds : (Call.edit edit).Succeeds catalog disk := by
          intro other isOther
          rw [Option.some.inj (isOther.symm.trans isTarget), persisted]
        generalize performed : edit.perform catalog disk = result
        obtain ⟨outcome, after, next⟩ := result
        have became := Edit.becomes keeps.fit.sorted performed
        have answers := Ledger.answers_edit succeeds became
        have kept := keeps.edit succeeds became
        have sameDisk : next = left := Edit.disk_written became isTarget persisted
        obtain ⟨reopened, opens, alike, keptReopened⟩ := kept.reopen
        rw [sameDisk] at opens keptReopened
        exact ⟨reopened, opens, keptReopened, Or.inr ⟨_, _, isLedger ▸ answers, alike⟩⟩
    | _ => exact absurd isTarget (by simp [Call.target?])

end Call

/-! ## Histories of a map -/

namespace Ledger

variable {ledger later : Ledger} {call : Call} {answer : Except Failure Answer}
  {events : List Event} {id : String}

/-- The id of every record is its key. -/
def Keyed (ledger : Ledger) : Prop := ∀ id record, ledger id = some record → record.id = id

theorem Keyed.set (keyed : ledger.Keyed) (record : Record) : (ledger.set record).Keyed := by
  intro id found here
  unfold Ledger.set at here
  split at here
  · next same =>
    rw [← Option.some.inj here]
    exact same.symm
  · exact keyed id found here

theorem Keyed.alike (keyed : ledger.Keyed) (alike : later.Alike ledger) : later.Keyed := by
  intro id record here
  have related := alike id
  rw [here] at related
  cases there : ledger id with
  | none => rw [there] at related; cases related
  | some other =>
    rw [there] at related
    cases related with
    | some same => exact same.id.trans (keyed id other there)

theorem Keyed.answers (keyed : ledger.Keyed) (answers : Answers call ledger answer later) :
    later.Keyed := by
  cases answers with
  | addFresh => exact keyed.set _
  | updateKnown => exact keyed.set _
  | reopen alike => exact keyed.alike alike
  | _ => exact keyed

theorem isSome_set (known : (ledger id).isSome = true) (record : Record) :
    (ledger.set record id).isSome = true := by
  unfold Ledger.set
  split
  · rfl
  · exact known

theorem Alike.isSome (alike : later.Alike ledger) (known : (ledger id).isSome = true) :
    (later id).isSome = true := by
  have related := alike id
  cases here : later id with
  | some record => rfl
  | none =>
    rw [here] at related
    cases there : ledger id with
    | none => rw [there] at known; exact known
    | some other => rw [there] at related; cases related

/-- No call removes an id. -/
theorem Answers.isSome (answers : Answers call ledger answer later)
    (known : (ledger id).isSome = true) : (later id).isSome = true := by
  cases answers with
  | addFresh => exact isSome_set known _
  | updateKnown => exact isSome_set known _
  | reopen alike => exact alike.isSome known
  | _ => exact known

/-- A record that was answered is in the map under its id. -/
theorem Answers.answered {record : Record} (keyed : ledger.Keyed)
    (answers : Answers call ledger (.ok (.record record)) later) :
    (later record.id).isSome = true := by
  cases answers with
  | addKnown known => rw [keyed _ _ known, known]; rfl
  | addFresh => simp [Ledger.set]
  | updateKnown => simp [Ledger.set]
  | getKnown known => rw [keyed _ _ known, known]; rfl

theorem Lives.keyed (lives : Ledger.Lives events ledger) : ledger.Keyed := by
  induction lives with
  | opened => exact fun _ _ wrong => absurd wrong (by simp)
  | answered _ answers keyed => exact Keyed.answers keyed answers
  | stoppedBefore _ _ alike keyed => exact Keyed.alike keyed alike
  | stoppedAfter _ answers alike keyed => exact (Keyed.answers keyed answers).alike alike

/-- Every record that was answered once is still there. -/
theorem Lives.remains (lives : Ledger.Lives events ledger) {record : Record}
    (answered : Event.answered call (.ok (.record record)) ∈ events) :
    (ledger record.id).isSome = true := by
  induction lives with
  | opened => exact absurd answered (by simp)
  | @answered events ledger later other answer earlier answers inductionHypothesis =>
    rcases List.mem_append.1 answered with before | now
    · exact answers.isSome (inductionHypothesis before)
    · obtain ⟨rfl, rfl⟩ := Event.answered.inj (List.mem_singleton.1 now)
      exact answers.answered earlier.keyed
  | stoppedBefore _ _ alike inductionHypothesis =>
    exact alike.isSome (inductionHypothesis (by simpa using answered))
  | stoppedAfter _ answers alike inductionHypothesis =>
    exact alike.isSome (answers.isSome (inductionHypothesis (by simpa using answered)))

end Ledger

/-! ## Histories of a catalog -/

section History

variable {events : List Event}

theorem stands_fresh (fresh : start.entryAt? (path.goal start.current) = none) :
    Stands path ⟨path, []⟩ start := Or.inl ⟨rfl, fresh⟩

/-- A history of a catalog is one of a map, whose records the catalog and its file hold. -/
theorem Lives.keeps (sound : start.Sound) (housed : Housed path start.current)
    (fresh : start.entryAt? (path.goal start.current) = none)
    (lives : Lives path start events catalog disk) :
    ∃ ledger, Ledger.Lives events ledger ∧ Keeps path start.current catalog disk ledger := by
  induction lives with
  | @opened catalog opens =>
    have fit : Fit ⟨path, []⟩ := ⟨List.Pairwise.nil, by simp⟩
    have stands := stands_fresh fresh
    rw [stands.opens housed.ends rfl fit] at opens
    rw [← Except.ok.inj opens]
    exact ⟨_, .opened, rfl, fit, sound, rfl, housed, fun _ => rfl, _, rfl, fit, Alike.refl _, stands⟩
  | answered _ succeeds ran inductionHypothesis =>
    obtain ⟨ledger, earlier, keeps⟩ := inductionHypothesis
    obtain ⟨later, answers, keepsNow⟩ := keeps.perform succeeds ran
    exact ⟨later, .answered earlier answers, keepsNow⟩
  | @stopped events catalog reopened disk left call _ leaves opens inductionHypothesis =>
    obtain ⟨ledger, earlier, keeps⟩ := inductionHypothesis
    obtain ⟨found, opensFound, keepsNow, outcome⟩ := keeps.stop leaves
    rw [Except.ok.inj (opens.symm.trans opensFound)]
    rcases outcome with before | ⟨answer, last, answers, after⟩
    · exact ⟨_, .stoppedBefore call earlier before, keepsNow⟩
    · exact ⟨_, .stoppedAfter earlier answers after, keepsNow⟩

/-- A catalog that starts without a file and whose writes succeed is a finite map that survives
stops.  Whatever calls were answered and whatever stops happened, the answers are those of a map
whose records the catalog holds, each under its own id, and none that was ever answered is gone.
The file opens as that map and its rows are strictly ascending.  When the process stops within
one more call, the file opens as the map from before that call or from after it. -/
theorem history_as_map (sound : start.Sound) (housed : Housed path start.current)
    (fresh : start.entryAt? (path.goal start.current) = none)
    (lives : Lives path start events catalog disk) :
    openAt start path = .ok ⟨path, []⟩ ∧
    ∃ ledger : Ledger, Ledger.Lives events ledger ∧ (∀ id, catalog.find? id = ledger id) ∧
      (∀ id record, ledger id = some record → record.id = id) ∧
      (∀ call record, Event.answered call (.ok (.record record)) ∈ events →
        (ledger record.id).isSome = true) ∧
      (∃ reopened, openAt disk path = .ok reopened ∧ Ledger.Alike reopened.find? ledger) ∧
      (∀ text, disk.readText path = .ok text →
        ∃ rows, Record.allOfText? text = some rows ∧ Ordered.Ascending Record.id rows) ∧
      (∀ call left, Call.Leaves call catalog disk left →
        ∃ reopened, openAt left path = .ok reopened ∧
          (Ledger.Alike reopened.find? ledger ∨
            ∃ answer later, Ledger.Answers call ledger answer later ∧
              Ledger.Alike reopened.find? later)) := by
  obtain ⟨ledger, map, keeps⟩ := lives.keeps sound housed fresh
  refine ⟨(stands_fresh fresh).opens housed.ends rfl ⟨List.Pairwise.nil, by simp⟩, ledger, map,
    keeps.lookup, map.keyed, fun call record => map.remains, ?_, ?_, ?_⟩
  · obtain ⟨reopened, opens, alike, _⟩ := keeps.reopen
    exact ⟨reopened, opens, alike⟩
  · intro text read
    obtain ⟨stored, _, fit, _, stands⟩ := keeps.file
    exact ⟨_, stands.rows housed.ends fit read, fit.sorted⟩
  · intro call left leaves
    obtain ⟨reopened, opens, _, outcome⟩ := keeps.stop leaves
    exact ⟨reopened, opens, outcome⟩

/-- A catalog that was opened without a file. -/
def sampleOpened : Catalog := ⟨samplePath, []⟩

/-- That catalog after a record was added. -/
def sampleAdded : Catalog := ⟨samplePath, [.ofId "a"]⟩

/-- The disk after the record was added. -/
def sampleWritten : Disk := (sampleAdded.persist sampleDisk).2

theorem sampleAdded_facts :
    sampleDisk.entryAt? (samplePath.goal sampleDisk.current) = none ∧
    (Edit.add "a").target? sampleOpened = some sampleAdded ∧
    sampleAdded.persist sampleDisk = (.ok (), sampleWritten) ∧
    (Edit.add "b").target? sampleAdded = some (sampleAdded.put (.ofId "b")) ∧
    (sampleWritten.createParent samplePath).1 = .ok () := by
  refine ⟨by decide +kernel, by decide +kernel, ?_, by decide +kernel, by decide +kernel⟩
  have wrote : (sampleAdded.persist sampleDisk).1 = .ok () := by decide +kernel
  exact Prod.ext wrote rfl

/-- The history of a catalog with one record, whose process stops while it adds another one. -/
def sampleEvents : List Event :=
  [.answered (.edit (.add "a")) (.ok (.record (.ofId "a"))), .stopped (.edit (.add "b"))]

/-- A process stops while it writes the sibling of the catalog file, and the history of the
catalog goes on as one of a map. -/
theorem sample_history :
    sampleDisk.Sound ∧ Housed samplePath sampleDisk.current ∧
    sampleDisk.entryAt? (samplePath.goal sampleDisk.current) = none ∧
    ∃ ready catalog left ledger, sampleWritten.createParent samplePath = (.ok (), ready) ∧
      left = (ready.writeText sampleAdded.sibling "[").2 ∧
      Lives samplePath sampleDisk sampleEvents catalog left ∧
      Ledger.Lives sampleEvents ledger ∧ ∀ id, catalog.find? id = ledger id := by
  obtain ⟨fresh, writes, wrote, adds, parent⟩ := sampleAdded_facts
  have succeeds : (Call.edit (.add "a")).Succeeds sampleOpened sampleDisk := by
    intro target same
    rw [← Option.some.inj (writes.symm.trans same), wrote]
  have performed : (Call.edit (.add "a")).perform sampleOpened sampleDisk =
      (.ok (.record (.ofId "a")), sampleAdded, sampleWritten) := rfl
  have added := Lives.answered (Lives.opened sampleDisk_open) succeeds performed
  obtain ⟨ready, created⟩ : ∃ ready, sampleWritten.createParent samplePath = (.ok (), ready) :=
    ⟨_, Prod.ext parent rfl⟩
  have leaves : (Call.edit (.add "b")).Leaves sampleAdded sampleWritten
      (ready.writeText sampleAdded.sibling "[").2 :=
    Or.inr ⟨_, adds, .sibling created (.text "[")⟩
  obtain ⟨_, _, _, _, _, _, _, _, stops⟩ :=
    history_as_map sampleDisk_sound samplePath_housed fresh added
  obtain ⟨reopened, opens, _⟩ := stops (.edit (.add "b")) _ leaves
  have stopped := Lives.stopped added leaves opens
  obtain ⟨_, ledger, map, lookup, _⟩ :=
    history_as_map sampleDisk_sound samplePath_housed fresh stopped
  exact ⟨sampleDisk_sound, samplePath_housed, fresh, ready, reopened, _, ledger, created, rfl,
    stopped, map, lookup⟩

end History

end Catalog

end EoAssembly
