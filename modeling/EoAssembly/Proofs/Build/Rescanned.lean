import EoAssembly.Proofs.Build.Surveyed
import Mathlib.Data.Prod.Basic

/-!
Contract: a scan that stopped at a document comes to the same when it is run again.

What is looked through is written at once, so the catalog file tells how far a scan came.  From the
second document on, a scan reads behind a write: these documents are beside the catalog file, and
what is written to that file does not change them.

Owns `Filed`, `Mends`, which says what a disk is like on which a stopped scan goes on, and the law
of discovering.

Does not own: what a scan makes of a catalog.
-/

namespace EoAssembly

namespace Catalog

variable {catalog : Catalog} {disk next ground between : Disk} {path : Path}

/-- The catalog file holds the records. -/
def Filed (catalog : Catalog) (disk : Disk) : Prop :=
  disk.readText catalog.path = .ok catalog.render

theorem filed_persist (sound : disk.Sound) (isText : catalog.path.IsText)
    (ran : catalog.persist disk = (.ok (), next)) : catalog.Filed next := by
  have ends := persist_endsInName ran
  have stands := (persist_stands sound (sibling_apart isText ends disk.current) ran).1
  obtain ⟨passable, touches⟩ := persist_ok sound ran
  rw [← touches.current] at stands
  apply Disk.readText_eq_ok.2
  rw [Disk.entry_of_name ends passable]
  exact stands

theorem Written.settles (prepared : Prepared path ground) (written : Written path ground between)
    (settles : Settles path between disk) : Written path ground disk := by
  rcases settles with same | ⟨_, again⟩
  · rw [same]
    exact written
  · rw [(prepared.same written.sound written.same).groundOf] at again
    exact written.trans again

end Catalog

namespace Build

open Catalog (Prepared Written groundOf Settles)

section Writes

variable {before after : Workspace} {added : Nat} {record : Record} {records : List Record}

/-- An object that was not looked through before is written when it is. -/
theorem discoverObject_writes {old : Record} {document : Path} (intact : Intact before)
    (isOptimized : record.optimized = some document)
    (found : before.foreign.find? record.id = some old) (unmarked : old.discovered = none)
    (ran : (discoverObject record).Yields before added after) :
    ∃ disk, Settles before.foreign.path before.disk disk ∧
      after.foreign.persist disk = (.ok (), after.disk) := by
  obtain ⟨names, between, _, _, ranNames, ranUpdate⟩ := (yields_discoverObject isOptimized).1 ran
  obtain ⟨enlarged, sameSeen⟩ := discoverNames_seen intact ranNames
  obtain ⟨now, foundNow, unmarkedNow⟩ : ∃ now, between.foreign.find? record.id = some now ∧
      now.discovered = none := by
    rw [sameSeen]
    unfold seenIn
    split
    · exact ⟨_, rfl, by simp [found, asSeenIn, unmarked]⟩
    · exact ⟨old, found, unmarked⟩
  obtain ⟨catalog, disk, updated, result⟩ := Step.yields_updateForeign.1 ranUpdate
  obtain ⟨_, unwritten | ⟨_, written, persisted, outcome⟩⟩ := Catalog.update_any foundNow updated
  · have differs := unwritten.1
    simp [Record.same, asDiscovered, unmarkedNow] at differs
  · refine ⟨between.disk, enlarged.disk, ?_⟩
    rw [result]
    cases written with
    | ok _ => exact persisted
    | error failure => exact absurd outcome (by simp [Except.map])

theorem discoverObject_filed {old : Record} {document : Path} (intact : Intact before)
    (isOptimized : record.optimized = some document)
    (found : before.foreign.find? record.id = some old) (unmarked : old.discovered = none)
    (ran : (discoverObject record).Yields before added after) :
    after.foreign.Filed after.disk ∧
      Prepared before.foreign.path (groundOf before.foreign.path before.disk) ∧
      Written before.foreign.path (groundOf before.foreign.path before.disk) after.disk := by
  obtain ⟨_, _, enlarged, _⟩ := discoverObject_told intact isOptimized ran
  obtain ⟨disk, settles, persisted⟩ :=
    discoverObject_writes intact isOptimized found unmarked ran
  have sound := settles.sound intact.sound
  have isText := (enlarged.intact intact).isText
  refine ⟨Catalog.filed_persist sound isText persisted, ?_⟩
  have written := Catalog.persist_ground sound isText persisted
  rw [enlarged.path] at written
  rcases settles with same | ⟨prepared, between⟩
  · rw [same] at written
    exact written
  · exact ⟨prepared, between.settles prepared (Or.inr written)⟩

/-- Behind a scan of some records the catalog file holds the catalog. -/
theorem discoverEach_filed (intact : Intact before) (pending : Pending records before.foreign)
    (some_ : records ≠ []) (ran : (discoverEach records).Yields before added after) :
    after.foreign.Filed after.disk := by
  induction records generalizing before added with
  | nil => exact absurd rfl some_
  | cons record rest inductionHypothesis =>
    obtain ⟨_, between, _, ranFirst, ranRest, rfl⟩ := yields_discoverEach_cons.1 ran
    obtain ⟨old, found, unmarked⟩ := pending.known record List.mem_cons_self
    obtain ⟨document, _, isOptimized, _, enlarged, left, _⟩ := pending.looked intact ranFirst
    cases rest with
    | nil =>
      obtain ⟨_, rfl⟩ := Step.yields_pure.1 ranRest
      exact (discoverObject_filed intact isOptimized found unmarked ranFirst).1
    | cons second others =>
      exact inductionHypothesis (enlarged.intact intact) left (by simp) ranRest

/-- Documents that are read behind a write are beside the catalog file. -/
theorem discoverEach_beside {path : Path} {ground : Disk} (intact : Intact before)
    (isPath : before.foreign.path = path) (prepared : Prepared path ground)
    (written : Written path ground before.disk) (pending : Pending records before.foreign)
    (ran : (discoverEach records).Yields before added after) :
    ∀ record ∈ records, ∀ document ∈ record.optimized,
      Catalog.Beside path ground document := by
  induction records generalizing before added with
  | nil => simp
  | cons record rest inductionHypothesis =>
    obtain ⟨_, between, _, ranFirst, ranRest, rfl⟩ := yields_discoverEach_cons.1 ran
    obtain ⟨document, names, isOptimized, reads, enlarged, left, _⟩ :=
      pending.looked intact ranFirst
    have settles := enlarged.disk
    rw [isPath] at settles
    have others := inductionHypothesis (enlarged.intact intact) (enlarged.path.trans isPath)
      (written.settles prepared settles) left ranRest
    rintro other member found isFound
    rcases List.mem_cons.1 member with here | behind
    · rw [here, Option.mem_def, isOptimized] at isFound
      rw [← Option.some.inj isFound]
      obtain ⟨text, document, stands, isDocument, _⟩ := namesIn_ok.1 reads
      exact written.beside stands isDocument
    · exact others other behind found isFound

/-- All documents behind the first one are read behind a write. -/
theorem discoverEach_beside_rest {first rest : List Record} (intact : Intact before)
    (pending : Pending (first ++ record :: rest) before.foreign)
    (ran : (discoverEach (first ++ record :: rest)).Yields before added after) :
    ∀ other ∈ rest, ∀ document ∈ other.optimized,
      Catalog.Beside before.foreign.path (groundOf before.foreign.path before.disk) document := by
  obtain ⟨head, tail, split, among⟩ : ∃ head tail, first ++ record :: rest = head :: tail ∧
      ∀ other ∈ rest, other ∈ tail := by
    cases first with
    | nil => exact ⟨record, rest, rfl, fun _ => id⟩
    | cons head others => exact ⟨head, others ++ record :: rest, rfl, by simp_all⟩
  rw [split] at pending ran
  obtain ⟨_, between, _, ranFirst, ranRest, rfl⟩ := yields_discoverEach_cons.1 ran
  obtain ⟨old, found, unmarked⟩ := pending.known head List.mem_cons_self
  obtain ⟨document, _, isOptimized, _, enlarged, left, _⟩ := pending.looked intact ranFirst
  obtain ⟨_, prepared, written⟩ :=
    discoverObject_filed intact isOptimized found unmarked ranFirst
  have beside := discoverEach_beside (enlarged.intact intact) enlarged.path prepared written left
    ranRest
  exact fun other member => beside other (among other member)

end Writes

/-! ## Going on behind a stop -/

section Again

variable {start stopped whole : Workspace} {origin repaired rewritten : Disk}

/-- A disk on which a scan that stopped goes on: the catalog can be written, and all documents that
wait read there as a scan that never stopped reads them on another disk. -/
structure Mends (start : Workspace) (origin repaired : Disk) : Prop where
  sound : repaired.Sound
  calm : repaired.Calm
  writes : ∃ rewritten, start.foreign.persist repaired = (.ok (), rewritten)
  current : repaired.current = origin.current
  /-- What could be read before the stop is the same. -/
  before : ∀ record ∈ waiting start.foreign, ∀ document ∈ record.optimized, ∀ names,
    namesIn (groundOf start.foreign.path start.disk) document = .ok names →
    namesIn (groundOf start.foreign.path origin) document = .ok names
  /-- Everything can be read afterwards. -/
  afterwards : ∀ record ∈ waiting start.foreign, ∀ document ∈ record.optimized, ∀ names,
    namesIn (groundOf start.foreign.path origin) document = .ok names →
    namesIn repaired document = .ok names

/-- What is beside the catalog file reads the same however often the catalog is written. -/
theorem namesIn_settled {path : Path} {disk : Disk} {document : Path} {names : List String}
    (sound : repaired.Sound) (settles : Settles path repaired disk)
    (beside : Catalog.Beside path (groundOf path repaired) document)
    (reads : namesIn repaired document = .ok names) : namesIn disk document = .ok names := by
  rcases settles with same | ⟨_, written⟩
  · rw [same]
    exact reads
  · obtain ⟨text, found, stands, isDocument, same⟩ := namesIn_ok.1 reads
    refine namesIn_ok.2 ⟨text, found, ?_, isDocument, same⟩
    rw [written.entry? beside]
    exact Catalog.entry?_groundOf sound stands

/-- What is beside the catalog file for a scan that never stopped is beside it on the mended
disk. -/
theorem Mends.beside {records : List Record} (mends : Mends start origin repaired)
    (soundOrigin : origin.Sound)
    (others : ∀ record ∈ records, ∀ document ∈ record.optimized,
      Catalog.Beside start.foreign.path (groundOf start.foreign.path origin) document) :
    ∀ record ∈ records, ∀ document ∈ record.optimized,
      Catalog.Beside start.foreign.path (groundOf start.foreign.path repaired) document := by
  intro record member document isFound
  unfold Catalog.Beside
  rw [Catalog.current_groundOf _ mends.sound, mends.current,
    ← Catalog.current_groundOf start.foreign.path soundOrigin]
  exact others record member document isFound

/-- What a stop left over is looked through on the mended disk.  Only the first document is read
before the catalog is written there. -/
theorem Mends.discoverEach {record : Record} {rest : List Record} {one : Nat}
    (mends : Mends start origin repaired) (intact : Intact start)
    (larger : Enlarged start one stopped) (left : Pending (record :: rest) stopped.foreign)
    (reads : ∀ other ∈ record :: rest, ∀ document ∈ other.optimized,
      ∃ names, namesIn repaired document = .ok names)
    (beside : ∀ other ∈ rest, ∀ document ∈ other.optimized,
      Catalog.Beside start.foreign.path (groundOf start.foreign.path repaired) document) :
    ∃ added last, (discoverEach (record :: rest)).Yields { stopped with disk := repaired } added
      last := by
  obtain ⟨rewritten, writes⟩ := mends.writes
  have serves : Serves start.foreign repaired rewritten :=
    ⟨mends.sound, mends.calm, intact.isText, writes⟩
  have served : Served start.foreign repaired { stopped with disk := repaired } :=
    ⟨larger.path, .refl _ _, mends.calm⟩
  have intactAgain : Intact { stopped with disk := repaired } :=
    ⟨larger.sorted, mends.sound, (larger.intact intact).isText⟩
  obtain ⟨document, isOptimized⟩ :=
    Option.isSome_iff_exists.1 (left.optimized record List.mem_cons_self)
  obtain ⟨names, readsFirst⟩ := reads record List.mem_cons_self document isOptimized
  obtain ⟨old, found, _⟩ := left.known record List.mem_cons_self
  obtain ⟨two, middle, looked, servedMiddle⟩ :=
    served.discoverObject serves intactAgain isOptimized ⟨old, found⟩ readsFirst
  have pending : Pending (record :: rest) { stopped with disk := repaired }.foreign := left
  obtain ⟨_, _, _, _, largerMiddle, leftMiddle, _⟩ := pending.looked intactAgain looked
  obtain ⟨three, last, others, _⟩ := servedMiddle.discoverEach serves
    (largerMiddle.intact intactAgain) leftMiddle fun other member document isFound disk settles => by
      obtain ⟨names, readsOther⟩ :=
        reads other (List.mem_cons_of_mem record member) document isFound
      exact ⟨names, namesIn_settled mends.sound settles (beside other member document isFound)
        readsOther⟩
  exact ⟨two + three, last, yields_discoverEach_cons.2 ⟨two, middle, three, looked, others, rfl⟩⟩

/-- A scan that goes on behind a stop comes to the catalog of a scan that never stopped. -/
theorem discoverAll_resumes {label message : String} {count : Nat} (intact : Intact start)
    (ran : discoverAll.perform start = (.error (.document label message), stopped))
    (soundOrigin : origin.Sound) (mends : Mends start origin repaired)
    (through : discoverAll.Yields { start with disk := origin } count whole) :
    ∃ added last, discoverAll.Yields { stopped with disk := repaired } added last ∧
      last.foreign = whole.foreign ∧ last.foreign.Filed last.disk := by
  rw [perform_discoverAll] at ran
  unfold Step.Yields at through
  rw [perform_discoverAll] at through
  have pending := pending_waiting intact.sorted
  obtain ⟨first, record, rest, one, split, scanned⟩ := discoverEach_stops ran
  have intactOrigin : Intact { start with disk := origin } :=
    ⟨intact.sorted, soundOrigin, intact.isText⟩
  obtain ⟨largerWhole, readsWhole, sameWhole⟩ :=
    discoverEach_told soundOrigin intactOrigin (.refl _ _) pending through
  have among : ∀ other, other ∈ first ∨ other ∈ record :: rest → other ∈ waiting start.foreign := by
    intro other
    rw [split, List.mem_append]
    exact id
  rw [split] at pending
  -- Up to the stop both scans look through the same.
  obtain ⟨larger, sameFirst⟩ :=
    discoverEach_told_as intact.sound intact (.refl _ _) pending.split.1 scanned
      fun other member document isOptimized names reads => (namesOfRecord_eq isOptimized
        (mends.before other (among other (.inl member)) document isOptimized names reads)).symm
  have isRest : discoverEach (waiting stopped.foreign) = discoverEach (record :: rest) :=
    discoverEach_tasks (tasks_left intact.sorted larger.sorted split sameFirst)
  -- The second scan goes through the others.
  have intactAgain : Intact { stopped with disk := repaired } :=
    ⟨larger.sorted, mends.sound, (larger.intact intact).isText⟩
  have left : Pending (record :: rest) stopped.foreign := pending.rest sameFirst
  have readsRest : ∀ other ∈ record :: rest, ∀ document ∈ other.optimized,
      namesIn repaired document =
        .ok (namesOfRecord (groundOf start.foreign.path origin) other) := by
    intro other member document isOptimized
    have member := among other (.inr member)
    exact mends.afterwards other member document isOptimized _
      (readsWhole other member document isOptimized)
  rw [split] at through
  obtain ⟨added, last, ranAgain⟩ := mends.discoverEach intact larger left
    (fun other member document isFound => ⟨_, readsRest other member document isFound⟩)
    (mends.beside soundOrigin (discoverEach_beside_rest intactOrigin pending through))
  refine ⟨added, last, ?_, ?_, discoverEach_filed intactAgain left (by simp) ranAgain⟩
  · unfold Step.Yields
    rw [perform_discoverAll, isRest]
    exact ranAgain
  -- Both scans together look through what a single one does.
  obtain ⟨largerLast, sameLast⟩ :=
    discoverEach_told_as mends.sound intactAgain (.refl _ _) left ranAgain
      fun other member document isOptimized names reads => Except.ok.inj (reads.symm.trans
        (namesIn_settles mends.sound (.refl _ _) (readsRest other member document isOptimized)))
  have sameFind : last.foreign.find? = whole.foreign.find? := by
    rw [sameLast, sameWhole, split, pending.told_append, sameFirst]
  have samePath : last.foreign.path = whole.foreign.path := by
    rw [largerLast.path, largerWhole.path]
    exact larger.path
  exact Catalog.eq_of_find samePath largerWhole.sorted largerLast.sorted (congrFun sameFind)

/-- A scan that goes through leaves nothing to do. -/
theorem discoverAll_through {added : Nat} (intact : Intact start)
    (ran : discoverAll.Yields start added whole) :
    Enlarged start added whole ∧
      (∀ record ∈ waiting start.foreign, ∀ document ∈ record.optimized,
        namesIn (groundOf start.foreign.path start.disk) document =
          .ok (namesOfRecord (groundOf start.foreign.path start.disk) record)) ∧
      Surveyed (namesOfRecord (groundOf start.foreign.path start.disk)) start.foreign
        whole.foreign ∧
      (waiting start.foreign ≠ [] → whole.foreign.Filed whole.disk) ∧
      discoverAll.perform whole = (.ok 0, whole) := by
  unfold Step.Yields at ran
  rw [perform_discoverAll] at ran
  have pending := pending_waiting intact.sorted
  obtain ⟨larger, reads, same⟩ := discoverEach_told intact.sound intact (.refl _ _) pending ran
  have nothing : waiting whole.foreign = [] := by
    have split : waiting start.foreign = waiting start.foreign ++ [] := by simp
    exact List.map_eq_nil_iff.1 (tasks_left intact.sorted larger.sorted split same)
  refine ⟨larger, reads, surveyed_of_told intact.sorted same,
    fun some_ => discoverEach_filed intact pending some_ ran, ?_⟩
  rw [perform_discoverAll, nothing]
  rfl

theorem nodup_namesOfRecord (disk : Disk) (record : Record) :
    (namesOfRecord disk record).Nodup := by
  cases isOptimized : record.optimized with
  | none => simp [namesOfRecord, isOptimized]
  | some document =>
    cases reads : namesIn disk document with
    | error failure => simp [namesOfRecord, isOptimized, reads]
    | ok names =>
      rw [namesOfRecord_eq isOptimized reads]
      obtain ⟨_, _, _, _, isNames⟩ := namesIn_ok.1 reads
      rw [← isNames]
      exact Ordered.nodup_names _

/-- Discovering adds exactly the names that the documents of the waiting objects refer to, and
counts them; what was there is kept, nothing is left to do, and the catalog file holds the result.
When it stops at a document, it comes to the same catalog as if it had not, once all documents can
be read and it is run again. -/
theorem discoverAll_surveys (sorted : start.foreign.Sorted) (sound : start.disk.Sound)
    (isText : start.foreign.path.IsText) :
    (∀ added final, discoverAll.perform start = (.ok added, final) →
      final = { start with foreign := final.foreign, disk := final.disk } ∧
      final.foreign.path = start.foreign.path ∧
      Settles start.foreign.path start.disk final.disk ∧
      final.foreign.size = start.foreign.size + added ∧
      (∀ record ∈ waiting start.foreign, ∀ document ∈ record.optimized,
        namesIn (groundOf start.foreign.path start.disk) document =
            .ok (namesOfRecord (groundOf start.foreign.path start.disk) record) ∧
          (namesOfRecord (groundOf start.foreign.path start.disk) record).Nodup) ∧
      Surveyed (namesOfRecord (groundOf start.foreign.path start.disk)) start.foreign
        final.foreign ∧
      (waiting start.foreign ≠ [] → final.foreign.Filed final.disk) ∧
      discoverAll.perform final = (.ok 0, final)) ∧
    ∀ label message stopped,
      discoverAll.perform start = (.error (.document label message), stopped) →
      ∀ origin repaired, origin.Sound → Mends start origin repaired →
      ∀ count whole, discoverAll.perform { start with disk := origin } = (.ok count, whole) →
      ∃ added last, discoverAll.perform { stopped with disk := repaired } = (.ok added, last) ∧
        last.foreign = whole.foreign ∧ last.foreign.Filed last.disk := by
  have intact : Intact start := ⟨sorted, sound, isText⟩
  constructor
  · intro added final ran
    obtain ⟨larger, reads, surveyed, filed, idle⟩ := discoverAll_through intact ran
    refine ⟨larger.frame, larger.path, larger.disk, larger.size, ?_, surveyed, filed, idle⟩
    intro record member document isOptimized
    exact ⟨reads record member document isOptimized, nodup_namesOfRecord _ record⟩
  · intro label message stopped ran origin repaired soundOrigin mends count whole through
    exact discoverAll_resumes intact ran soundOrigin mends through

end Again

/-! ## A scan with a missing document -/

/-- A catalog in `t`, where `a` and `b` wait and `c` was seen before, with the document of `a`,
which refers to `b` and `c`. -/
def gapStart : Workspace where
  disk := ⟨[(["w"], .directory), (["w", "t"], .directory),
    (["w", "t", "a.xmir"], .file (.text
      "<program><objects><o base=\x22b\x22/><o base=\x22c\x22/></objects></program>"))], ["w"], []⟩
  foreign := ⟨.ofText "t/eo-foreign.json",
    [{ Record.ofId "a" with optimized := some (.ofText "t/a.xmir") },
      { Record.ofId "b" with optimized := some (.ofText "t/b.xmir") },
      { Record.ofId "c" with discoveredAt := some (.ofText "t/z.xmir") }]⟩
  external := ⟨.ofText "t/eo-external.json", []⟩
  slot := .empty
  journal := []
  instant := ""

/-- A disk with the document of `b`, which refers to `c` and `d`. -/
def gapFilled (disk : Disk) : Disk :=
  disk.put ["w", "t", "b.xmir"] (.file (.text
    "<program><objects><o base=\x22c\x22/><o base=\x22d\x22/></objects></program>"))

/-- The scan that stops at the document of `b`. -/
def gapRun : Except Failure Nat × Workspace := discoverAll.perform gapStart

/-- The scan where the document of `b` is there. -/
def filledRun : Except Failure Nat × Workspace :=
  discoverAll.perform { gapStart with disk := gapFilled gapStart.disk }

theorem gap_facts : gapRun.1 = .error (.document "t/b.xmir" Refusal.missing.message) ∧
    filledRun.1 = .ok 1 := by
  decide +kernel

theorem gap_sound : gapStart.disk.Sound ∧ (gapFilled gapStart.disk).Sound ∧
    (gapFilled gapRun.2.disk).Sound :=
  ⟨Disk.sound_of_entries (by decide) (by decide), Disk.sound_of_entries (by decide) (by decide),
    Disk.sound_of_entries (by decide +kernel) (by decide +kernel)⟩

/-- What is read on three disks. -/
theorem gap_reads : ∀ record ∈ waiting gapStart.foreign, ∀ document ∈ record.optimized,
    ((namesIn (groundOf gapStart.foreign.path gapStart.disk) document).isOk = false ∨
      namesIn (groundOf gapStart.foreign.path (gapFilled gapStart.disk)) document =
        namesIn (groundOf gapStart.foreign.path gapStart.disk) document) ∧
    namesIn (gapFilled gapRun.2.disk) document =
      namesIn (groundOf gapStart.foreign.path (gapFilled gapStart.disk)) document := by
  decide +kernel

theorem gap_serves : (gapFilled gapRun.2.disk).outages = [] ∧
    (gapFilled gapRun.2.disk).current = ["w"] ∧
    (gapStart.foreign.persist (gapFilled gapRun.2.disk)).1 = .ok () := by
  decide +kernel

theorem gap_mends : Mends gapStart (gapFilled gapStart.disk) (gapFilled gapRun.2.disk) where
  sound := gap_sound.2.2
  calm := gap_serves.1
  writes := ⟨_, Prod.fst_eq_iff.1 gap_serves.2.2⟩
  current := gap_serves.2.1
  before record member document isOptimized names reads := by
    rcases (gap_reads record member document isOptimized).1 with unread | same
    · rw [reads] at unread
      exact absurd unread (by simp [Except.isOk, Except.toBool])
    · rw [same]
      exact reads
  afterwards record member document isOptimized names reads := by
    rw [(gap_reads record member document isOptimized).2]
    exact reads

theorem gap_surveyed : gapRun.1 = .error (.document "t/b.xmir" Refusal.missing.message) ∧
    Surveyed (namesOfRecord (groundOf gapStart.foreign.path (gapFilled gapStart.disk)))
      gapStart.foreign filledRun.2.foreign ∧
    discoverAll.perform filledRun.2 = (.ok 0, filledRun.2) ∧
    ∃ added last,
      discoverAll.perform { gapRun.2 with disk := gapFilled gapRun.2.disk } = (.ok added, last) ∧
      last.foreign = filledRun.2.foreign := by
  obtain ⟨stops, goes⟩ := gap_facts
  have sorted : gapStart.foreign.Sorted := by
    unfold Catalog.Sorted Ordered.Ascending
    decide
  have isText : gapStart.foreign.path.IsText := by decide
  have isGap : discoverAll.perform gapStart = gapRun := rfl
  have isFilled : discoverAll.perform { gapStart with disk := gapFilled gapStart.disk } =
      filledRun := rfl
  have stopped := isGap.trans (Prod.fst_eq_iff.1 stops)
  have through := isFilled.trans (Prod.fst_eq_iff.1 goes)
  have onFilled := @discoverAll_surveys { gapStart with disk := gapFilled gapStart.disk } sorted
    gap_sound.2.1 isText
  have onGap := @discoverAll_surveys gapStart sorted gap_sound.1 isText
  obtain ⟨_, _, _, _, _, surveyed, _, idle⟩ := onFilled.1 1 filledRun.2 through
  obtain ⟨added, last, again, same, _⟩ := onGap.2 _ _ gapRun.2 stopped _ _ gap_sound.2.1 gap_mends
    1 filledRun.2 through
  exact ⟨stops, surveyed, idle, added, last, again, same⟩

end Build

end EoAssembly
