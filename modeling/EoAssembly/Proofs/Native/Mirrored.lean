import EoAssembly.Proofs.Disk.Attempt
import EoAssembly.Proofs.Native.Rebuilt

/-!
Contract: what a library of inserts holds, how many files a run writes for it, and that a
second run writes none.

A run reads the documents one after the other and writes only files that every insert has for
itself or that are common to all.  So it comes to the inserts in order and to one text for each
file; the first writer of a crate decides on its version.  A file counts as written when its
place held something else.  The first file counts too when the target is reached through `..`
out of a directory that was not there, since nothing could be read on that way.

Owns `Library.files`, `Library.changed`, `Library.unread`, `Library.Mirrors`, and this law.

Does not own: what is read from the table of names.
-/

namespace EoAssembly.Native

open Disk (Confined)
open Document (Insert)

/-! ## The crates of a manifest -/

namespace Manifest

variable {manifest : Manifest} {crates : List (String × String)}

/-- A crate that is listed keeps its version. -/
theorem version?_add (manifest : Manifest) (crate version other : String) :
    (manifest.add crate version).version? other =
      (manifest.version? other).or (if other = crate then some version else none) := by
  unfold add
  split
  · next listed =>
    split
    · next same =>
      obtain ⟨kept, found⟩ := Option.isSome_iff_exists.1 listed
      rw [same, found, Option.some_or]
    · rw [Option.or_none]
  · next missing =>
    have nothing := Option.not_isSome_iff_eq_none.1 missing
    unfold version? at nothing ⊢
    rw [NativeRegistry.lookup_eq, NativeRegistry.lookup_eq]
    by_cases same : other = crate
    · subst same
      rw [NativeRegistry.lookup_eq] at nothing
      rw [if_pos rfl, nothing, Option.none_or]
      exact congrArg (Option.map Prod.snd) (Ordered.find?_put_same Prod.fst (other, version) _)
    · rw [if_neg same, Option.or_none, Ordered.find?_put_other (Ne.symm same)]

/-- The first of several versions of a crate holds. -/
theorem version?_addAll (crate : String) : (manifest.addAll crates).version? crate =
    (manifest.version? crate).or (crates.lookup crate) := by
  unfold addAll
  induction crates generalizing manifest with
  | nil => rw [List.foldl_nil, List.lookup_nil, Option.or_none]
  | cons first rest inductionHypothesis =>
    rw [List.foldl_cons, inductionHypothesis, version?_add, Option.or_assoc, List.lookup_cons]
    by_cases same : crate = first.1
    · rw [if_pos same, beq_iff_eq.2 same, Option.some_or]
    · rw [if_neg same, beq_eq_false_iff_ne.2 same, Option.none_or]

theorem ascending_addAll (ascending : Ordered.Ascending Prod.fst manifest.dependencies) :
    Ordered.Ascending Prod.fst (manifest.addAll crates).dependencies := by
  unfold addAll
  induction crates generalizing manifest with
  | nil => exact ascending
  | cons first rest inductionHypothesis =>
    rw [List.foldl_cons]
    apply inductionHypothesis
    unfold add
    split
    · exact ascending
    · exact Ordered.ascending_put ascending

theorem name_addAll : (manifest.addAll crates).name = manifest.name := by
  unfold addAll
  induction crates generalizing manifest with
  | nil => rfl
  | cons first rest inductionHypothesis =>
    rw [List.foldl_cons, inductionHypothesis]
    unfold add
    split <;> rfl

end Manifest

namespace Library

variable {target : Path} {draft next : Draft} {insert : Insert} {inserts found front : List Insert}
  {start before present after : Workspace} {file : File} {text : String} {count written : Nat}
  {items : List (File × String)} {record : Record} {records : List Record} {part : List Insert}
  {parts : List (List Insert)}

/-! ## The files of a library -/

/-- The two files of an insert. -/
def insertFiles (number : Nat) (insert : Insert) : List (File × String) :=
  [(.code number, insert.code), (.source number, insert.code)]

/-- The files of inserts, in order. -/
def codeFiles (inserts : List Insert) : List (File × String) :=
  (inserts.mapIdx insertFiles).flatten

/-- The manifest of a library with inserts. -/
def manifestOf (inserts : List Insert) : Manifest :=
  (Manifest.ofName crateName).addAll (inserts.flatMap Insert.dependencies)

/-- The files that are common to inserts, in the order of writing. -/
def commonFiles (target : Path) (inserts : List Insert) : List (File × String) :=
  [(.modules, modulesText ((List.range inserts.length).map (functionName target))),
    (.manifest, (manifestOf inserts).render),
    (.names, namesText (Ordered.ofList Prod.fst (table target inserts)))]

/-- The files of a library with what they hold, in the order of writing. -/
def files (target : Path) (inserts : List Insert) : List (File × String) :=
  codeFiles inserts ++ commonFiles target inserts

theorem codeFiles_concat (inserts : List Insert) (insert : Insert) :
    codeFiles (inserts ++ [insert]) = codeFiles inserts ++ insertFiles inserts.length insert := by
  simp [codeFiles, List.mapIdx_append]

/-- The files of inserts are two for each. -/
theorem mem_codeFiles {item : File × String} :
    item ∈ codeFiles inserts ↔ ∃ number insert, inserts[number]? = some insert ∧
      (item = (.code number, insert.code) ∨ item = (.source number, insert.code)) := by
  unfold codeFiles
  rw [List.mem_flatten]
  constructor
  · rintro ⟨both, among, member⟩
    obtain ⟨number, bounded, rfl⟩ := List.mem_mapIdx.1 among
    exact ⟨number, inserts[number], List.getElem?_eq_getElem bounded, by simpa [insertFiles] using member⟩
  · rintro ⟨number, insert, reads, either⟩
    obtain ⟨bounded, rfl⟩ := List.getElem?_eq_some_iff.1 reads
    exact ⟨_, List.mem_mapIdx.2 ⟨number, bounded, rfl⟩, by simpa [insertFiles] using either⟩

/-- Whether the place of a file holds its text. -/
def upToDate (disk : Disk) (target : Path) (item : File × String) : Bool :=
  disk.entryAt? ((item.1.path target).goal disk.current) == some (.file (.text item.2))

/-- Whether every directory that the way to a target leaves through `..` is there. -/
def reached (disk : Disk) (target : Path) : Bool :=
  (target.left disk.current).all disk.directoryAt

/-- The number of files whose content is another one. -/
def changed (disk : Disk) (target : Path) (items : List (File × String)) : Nat :=
  items.countP fun item => !upToDate disk target item

/-- The number of files that hold their text and still can't be read: the first one, when the way
to the target isn't there. -/
def unread (disk : Disk) (target : Path) : List (File × String) → Nat
  | [] => 0
  | item :: _ => if upToDate disk target item && !reached disk target then 1 else 0

theorem upToDate_iff {disk : Disk} : upToDate disk target (file, text) = true ↔
    disk.entryAt? ((file.path target).goal disk.current) = some (.file (.text text)) :=
  beq_iff_eq

theorem reached_iff {disk : Disk} (file : File) :
    reached disk target = true ↔ disk.Passable (file.path target) := by
  unfold reached
  rw [List.all_eq_true, Disk.passable_of_names file.components_path]
  rfl

/-- A generated file is read at its place. -/
theorem readText_iff {disk : Disk} : disk.readText (file.path target) = .ok text ↔
    upToDate disk target (file, text) = true ∧ reached disk target = true := by
  rw [Disk.readText_eq_ok, upToDate_iff, reached_iff file]
  constructor
  · intro found
    obtain ⟨_, passable, stands⟩ := Disk.entry_eq_some found
    exact ⟨stands, passable⟩
  · rintro ⟨stands, passable⟩
    have ends : (file.path target).EndsInName := by
      have plain : ∀ name ∈ ["Cargo.toml", "names.json"], Path.IsName name := by decide
      cases file with
      | code number => exact Path.endsInName_child _ (isName_function target number)
      | source number => exact Path.endsInName_child _ (isName_function target number)
      | modules =>
        have two : Path.ofText "src/lib.rs" = ⟨["src", "lib.rs"]⟩ := by decide
        have names : ∀ name ∈ ["src", "lib.rs"], Path.Names name := by decide
        change ((directory target).child "src/lib.rs").EndsInName
        unfold Path.child
        rw [two, Path.join_names _ names]
        exact Path.endsInName_append _ (by simp) names
      | manifest => exact Path.endsInName_child _ (plain _ (by simp))
      | names => exact Path.endsInName_child _ (plain _ (by simp))
    rw [Disk.entry_of_name ends passable, stands]

/-! ## Writing files one after the other -/

/-- A disk keeps its directories and changes at most in some places. -/
structure Grown (area : Location → Prop) (before after : Disk) : Prop where
  confined : Confined area before after
  directories : ∀ location, before.directoryAt location = true → after.directoryAt location = true

theorem Grown.trans {area : Location → Prop} {first second third : Disk}
    (left : Grown area first second) (right : Grown area second third) : Grown area first third :=
  ⟨left.confined.trans right.confined,
    fun location stands => right.directories location (left.directories location stands)⟩

theorem Grown.mono {area wider : Location → Prop} {first second : Disk} (grown : Grown area first second)
    (within : ∀ location, area location → wider location) : Grown wider first second :=
  ⟨⟨grown.confined.sound, grown.confined.current,
    fun location free => grown.confined.outside location fun inside => free (within location inside)⟩,
    grown.directories⟩

/-- A file outside of the places of a change stands there exactly when it stood there before. -/
theorem Grown.file_iff {area : Location → Prop} {first second : Disk} {location : Location}
    {content : FileContent} (grown : Grown area first second) (free : ¬area location) :
    second.entryAt? location = some (.file content) ↔
      first.entryAt? location = some (.file content) := by
  rcases grown.confined.outside location free with same | ⟨nothing, directory⟩
  · rw [same]
  · rw [nothing, directory]
    simp

/-- Writing a file counts unless it was there to be read. -/
theorem writeChanged_grown (file : File) (sound : before.disk.Sound)
    (ran : (writeChanged (file.path target) text).Yields before count after) :
    after.foreign = before.foreign ∧
      Grown (· = (file.path target).goal before.disk.current) before.disk after.disk ∧
      after.disk.readText (file.path target) = .ok text ∧
      count = if upToDate before.disk target (file, text) && reached before.disk target then 0
        else 1 := by
  have held : holdsText before.disk (file.path target) text =
      (upToDate before.disk target (file, text) && reached before.disk target) := by
    rw [Bool.eq_iff_iff, Bool.and_eq_true, ← readText_iff]
    unfold holdsText
    cases before.disk.readText (file.path target) <;> simp
  unfold writeChanged writeIfChanged at ran
  obtain ⟨disk, action, rfl⟩ := Step.yields_onDisk.1 ran
  rw [held] at action
  cases same : upToDate before.disk target (file, text) && reached before.disk target with
  | true =>
    rw [same, if_pos rfl] at action
    obtain ⟨isCount, rfl⟩ := Prod.mk.inj action
    refine ⟨rfl, ⟨.refl sound, fun _ stands => stands⟩, ?_, (Except.ok.inj isCount).symm⟩
    exact readText_iff.2 (by simpa using same)
  | false =>
    rw [same, if_neg (by simp)] at action
    cases wrote : Document.writeBelow before.disk (file.path target) text with
    | mk outcome next =>
      rw [wrote] at action
      cases outcome with
      | error failure => exact absurd (Prod.mk.inj action).1 (by simp)
      | ok _ =>
        obtain ⟨isCount, rfl⟩ := Prod.mk.inj action
        obtain ⟨ends, passable, touches, stands⟩ := Document.writeBelow_ok sound wrote
        refine ⟨rfl, ⟨Confined.of_touches touches (by simp) (by simp), touches.directories⟩, ?_,
          (Except.ok.inj isCount).symm⟩
        rw [Disk.readText_eq_ok, Disk.entry_of_name ends passable, touches.current, stands]

/-- What writing files has come to so far: each holds its text, nothing else changed, and those are
counted whose place held something else. -/
structure Written (target : Path) (start present : Workspace) (items : List (File × String))
    (written : Nat) : Prop where
  untouched : items = [] → present = start
  foreign : present.foreign = start.foreign
  grown : Grown (· ∈ items.map fun item => (item.1.path target).goal start.disk.current)
    start.disk present.disk
  holds : ∀ item ∈ items, present.disk.readText (item.1.path target) = .ok item.2
  counted : written = changed start.disk target items + unread start.disk target items

theorem Written.initial (sound : start.disk.Sound) : Written target start start [] 0 :=
  ⟨fun _ => rfl, rfl, ⟨.refl sound, fun _ stands => stands⟩, by simp, rfl⟩

/-- One more file. -/
theorem Written.write (done : Written target start before items written) (file : File)
    (fresh : ∀ item ∈ items, item.1 ≠ file)
    (ran : (writeChanged (file.path target) text).Yields before count after) :
    Written target start after (items ++ [(file, text)]) (written + count) := by
  obtain ⟨foreign, grown, holds, isCount⟩ := writeChanged_grown file done.grown.confined.sound ran
  have current := done.grown.confined.current
  have apart : ∀ item ∈ items, (item.1.path target).goal start.disk.current ≠
      (file.path target).goal start.disk.current :=
    fun item member same => fresh item member (File.goal_inj same)
  refine ⟨by simp, foreign.trans done.foreign, ?_, fun item member => ?_, ?_⟩
  · rw [current] at grown
    exact (done.grown.mono (by simp +contextual)).trans (grown.mono (by simp +contextual))
  · rcases List.mem_append.1 member with earlier | last
    · obtain ⟨stands, way⟩ := readText_iff.1 (done.holds item earlier)
      rw [upToDate_iff] at stands
      refine readText_iff.2 ⟨upToDate_iff.2 ?_, ?_⟩
      · rw [grown.confined.current]
        refine (grown.file_iff ?_).2 stands
        rw [current]
        exact apart item earlier
      · rw [reached_iff item.1] at way ⊢
        intro passed member
        rw [grown.confined.current] at member
        exact grown.directories passed (way passed member)
    · rw [List.mem_singleton.1 last]
      exact holds
  · -- the place of the file is untouched so far, and its way is there once a file was written
    have sameHeld : upToDate before.disk target (file, text) = upToDate start.disk target (file, text) := by
      rw [Bool.eq_iff_iff, upToDate_iff, upToDate_iff, current]
      refine done.grown.file_iff ?_
      rw [List.mem_map]
      rintro ⟨item, member, same⟩
      exact apart item member same
    rw [sameHeld] at isCount
    rw [isCount, done.counted]
    unfold changed
    rw [List.countP_append, List.countP_singleton]
    cases items with
    | nil =>
      rw [done.untouched rfl]
      cases held : upToDate start.disk target (file, text) <;>
        cases way : reached start.disk target <;> simp [unread, held, way]
    | cons first rest =>
      have way : reached before.disk target = true :=
        (readText_iff.1 (done.holds first List.mem_cons_self)).2
      rw [way, Bool.and_true, List.cons_append]
      unfold unread
      cases upToDate start.disk target (file, text)
      · simp
        omega
      · simp

/-! ## Writing the files of inserts -/

/-- What adding inserts has come to: their files are written, and their crates are listed. -/
structure Added (target : Path) (start present : Workspace) (draft : Draft) (inserts : List Insert) :
    Prop where
  number : draft.functions.length = inserts.length
  manifest : draft.manifest = manifestOf inserts
  written : Written target start present (codeFiles inserts) draft.written

theorem Added.initial (sound : start.disk.Sound) : Added target start start .empty [] :=
  ⟨rfl, rfl, .initial sound⟩

/-- The files of the next insert have other places than those before. -/
theorem codeFiles_fresh {item : File × String} (member : item ∈ codeFiles inserts) :
    item.1 ≠ .code inserts.length ∧ item.1 ≠ .source inserts.length := by
  obtain ⟨number, insert, reads, either⟩ := mem_codeFiles.1 member
  have bounded := (List.getElem?_eq_some_iff.1 reads).1
  rcases either with rfl | rfl
  · exact ⟨fun same => absurd (File.code.inj same) (by omega), by simp⟩
  · exact ⟨by simp, fun same => absurd (File.source.inj same) (by omega)⟩

theorem Added.add (added : Added target start before draft inserts)
    (ran : (addInsert target draft insert).Yields before next after) :
    Added target start after next (inserts ++ [insert]) := by
  unfold addInsert at ran
  rw [added.number] at ran
  obtain ⟨first, between, wroteCode, ran⟩ := Step.yields_bind.1 ran
  obtain ⟨second, last, wroteSource, ran⟩ := Step.yields_bind.1 ran
  obtain ⟨rfl, rfl⟩ := Step.yields_pure.1 ran
  have code := added.written.write (.code inserts.length)
    (fun item member => (codeFiles_fresh member).1) wroteCode
  have source := code.write (.source inserts.length) (fun item member => by
    rcases List.mem_append.1 member with earlier | last
    · exact (codeFiles_fresh earlier).2
    · rw [List.mem_singleton.1 last]
      simp) wroteSource
  refine ⟨?_, ?_, ?_⟩
  · rw [List.length_append, List.length_append, added.number]
    rfl
  · rw [added.manifest]
    simp [manifestOf, Manifest.addAll]
  · rw [codeFiles_concat]
    rw [List.append_assoc] at source
    exact source

theorem Added.addAll (added : Added target start before draft inserts)
    (ran : (addInserts target draft found).Yields before next after) :
    Added target start after next (inserts ++ found) := by
  induction found generalizing draft before inserts with
  | nil =>
    obtain ⟨rfl, rfl⟩ := Step.yields_pure.1 ran
    rw [List.append_nil]
    exact added
  | cons insert rest inductionHypothesis =>
    obtain ⟨middle, between, first, ran⟩ := Step.yields_bind.1 ran
    have done := inductionHypothesis (added.add first) ran
    rwa [List.append_assoc] at done

/-- What is common to inserts is written after the files of each. -/
theorem Added.common (added : Added target start before draft inserts)
    (functions : draft.functions = (List.range inserts.length).map (functionName target))
    (names : draft.names = Ordered.ofList Prod.fst (table target inserts))
    (ran : (writeCommon target draft).Yields before count after) :
    Written target start after (files target inserts) (draft.written + count) := by
  unfold writeCommon at ran
  obtain ⟨modules, first, wroteModules, ran⟩ := Step.yields_bind.1 ran
  obtain ⟨manifest, second, wroteManifest, ran⟩ := Step.yields_bind.1 ran
  obtain ⟨table, third, wroteNames, ran⟩ := Step.yields_bind.1 ran
  obtain ⟨rfl, rfl⟩ := Step.yields_pure.1 ran
  rw [functions] at wroteModules
  rw [added.manifest] at wroteManifest
  rw [names] at wroteNames
  have codes : ∀ item ∈ codeFiles inserts,
      item.1 ≠ .modules ∧ item.1 ≠ .manifest ∧ item.1 ≠ .names := by
    intro item member
    obtain ⟨_, _, _, rfl | rfl⟩ := mem_codeFiles.1 member <;> simp
  have one := added.written.write .modules (fun item member => (codes item member).1)
    wroteModules
  have two := one.write .manifest (fun item member => by
    rcases List.mem_append.1 member with code | last
    · exact (codes item code).2.1
    · rw [List.mem_singleton.1 last]
      simp) wroteManifest
  have three := two.write .names (fun item member => by
    rcases List.mem_append.1 member with earlier | last
    · rcases List.mem_append.1 earlier with code | last
      · exact (codes item code).2.2
      · rw [List.mem_singleton.1 last]
        simp
    · rw [List.mem_singleton.1 last]
      simp) wroteNames
  unfold files commonFiles
  rw [List.append_assoc, List.append_assoc] at three
  have total : draft.written + (modules + manifest + table) =
      draft.written + modules + manifest + table := by omega
  rw [total]
  exact three

/-- Adding inserts keeps all that is no generated file. -/
theorem grown_addInserts (sound : before.disk.Sound)
    (ran : (addInserts target draft found).Yields before next after) :
    Grown (Generated target before.disk.current) before.disk after.disk := by
  induction found generalizing draft before with
  | nil =>
    obtain ⟨rfl, rfl⟩ := Step.yields_pure.1 ran
    exact ⟨.refl sound, fun _ stands => stands⟩
  | cons insert rest inductionHypothesis =>
    obtain ⟨middle, between, added, ran⟩ := Step.yields_bind.1 ran
    unfold addInsert at added
    obtain ⟨_, first, wroteCode, added⟩ := Step.yields_bind.1 added
    obtain ⟨_, second, wroteSource, added⟩ := Step.yields_bind.1 added
    obtain ⟨_, rfl⟩ := Step.yields_pure.1 added
    have code := (writeChanged_grown (.code _) sound wroteCode).2.1
    have source := (writeChanged_grown (.source _) code.confined.sound wroteSource).2.1
    have others := inductionHypothesis source.confined.sound ran
    rw [source.confined.current, code.confined.current] at others
    rw [code.confined.current] at source
    exact ((code.mono fun _ same => ⟨_, same⟩).trans (source.mono fun _ same => ⟨_, same⟩)).trans others

/-! ## Reading documents between the writes -/

/-- The inserts of a record: those of its optimized document, as it is read on a disk. -/
def Reads (disk : Disk) (record : Record) (part : List Insert) : Prop :=
  match record.optimized with
  | none => part = []
  | some path => ∃ document, Document.load disk path = .ok document ∧ document.inserts = .ok part

/-- The inserts of a record are read after those of the records before it were added. -/
def ReadAlong (target : Path) (draft : Draft) (before : Workspace) (inserts : List Insert)
    (record : Record) (part : List Insert) : Prop :=
  ∃ front back middle present, inserts = front ++ back ∧
    (addInserts target draft front).Yields before middle present ∧ Reads present.disk record part

theorem addInserts_append : (addInserts target draft (front ++ found)).Yields before next after ↔
    ∃ middle between, (addInserts target draft front).Yields before middle between ∧
      (addInserts target middle found).Yields between next after := by
  induction front generalizing draft before with
  | nil =>
    rw [List.nil_append]
    constructor
    · exact fun ran => ⟨draft, before, Step.yields_pure.2 ⟨rfl, rfl⟩, ran⟩
    · rintro ⟨middle, between, idle, ran⟩
      obtain ⟨rfl, rfl⟩ := Step.yields_pure.1 idle
      exact ran
  | cons insert rest inductionHypothesis =>
    rw [List.cons_append]
    constructor
    · intro ran
      obtain ⟨draft, between, added, ran⟩ := Step.yields_bind.1 ran
      obtain ⟨middle, later, first, second⟩ := inductionHypothesis.1 ran
      exact ⟨middle, later, Step.yields_bind.2 ⟨draft, between, added, first⟩, second⟩
    · rintro ⟨middle, between, ran, second⟩
      obtain ⟨draft, early, added, first⟩ := Step.yields_bind.1 ran
      exact Step.yields_bind.2 ⟨draft, early, added, inductionHypothesis.2 ⟨middle, between, first, second⟩⟩

/-- Collecting the inserts of records is adding them, with the documents read in between. -/
theorem collect_eq (ran : (collect target draft records).Yields before next after) :
    ∃ parts, List.Forall₂ (ReadAlong target draft before parts.flatten) records parts ∧
      (addInserts target draft parts.flatten).Yields before next after := by
  induction records generalizing draft before with
  | nil =>
    obtain ⟨rfl, rfl⟩ := Step.yields_pure.1 ran
    exact ⟨[], .nil, Step.yields_pure.2 ⟨rfl, rfl⟩⟩
  | cons record rest inductionHypothesis =>
    have start : ∀ {inserts part}, Reads before.disk record part →
        ReadAlong target draft before inserts record part :=
      fun reads => ⟨[], _, draft, before, rfl, Step.yields_pure.2 ⟨rfl, rfl⟩, reads⟩
    unfold collect at ran
    cases optimized : record.optimized with
    | none =>
      rw [optimized] at ran
      obtain ⟨parts, each, done⟩ := inductionHypothesis ran
      refine ⟨[] :: parts, .cons (start ?_) ?_, done⟩
      · unfold Reads
        rw [optimized]
      · exact each
    | some path =>
      rw [optimized] at ran
      obtain ⟨document, between, loaded, ran⟩ := Step.yields_bind.1 ran
      obtain ⟨reads, rfl⟩ := Step.yields_load.1 loaded
      obtain ⟨part, between, outcome, ran⟩ := Step.yields_bind.1 ran
      obtain ⟨isPart, rfl⟩ := Step.yields_ofOutcome.1 outcome
      obtain ⟨middle, between, added, ran⟩ := Step.yields_bind.1 ran
      obtain ⟨parts, each, done⟩ := inductionHypothesis ran
      refine ⟨part :: parts, .cons (start ?_) (each.imp ?_),
        addInserts_append.2 ⟨middle, between, added, done⟩⟩
      · unfold Reads
        rw [optimized]
        exact ⟨document, reads, isPart⟩
      · rintro other own ⟨front, back, reached, present, split, first, found⟩
        refine ⟨part ++ front, back, reached, present, ?_,
          addInserts_append.2 ⟨middle, between, added, first⟩, found⟩
        rw [List.flatten_cons, split, List.append_assoc]

/-- The text at the place of a record's optimized document has its inserts. -/
def Tells (disk : Disk) (record : Record) (part : List Insert) : Prop :=
  match record.optimized with
  | none => part = []
  | some path => ∃ text document,
      disk.entryAt? (path.goal disk.current) = some (.file (.text text)) ∧
      Document.ofText text path.text = .ok document ∧ document.inserts = .ok part

/-- No optimized document is at the place of a generated file. -/
def Apart (target : Path) (current : Location) (records : List Record) : Prop :=
  ∀ record ∈ records, ∀ path, record.optimized = some path → ¬Generated target current (path.goal current)

/-- A document that is read has the text at its place. -/
theorem Reads.tells {disk : Disk} (reads : Reads disk record part) : Tells disk record part := by
  unfold Reads at reads
  unfold Tells
  cases optimized : record.optimized with
  | none =>
    rw [optimized] at reads
    exact reads
  | some path =>
    rw [optimized] at reads
    obtain ⟨document, loads, isPart⟩ := reads
    obtain ⟨text, found, reads⟩ := Document.load_eq_ok.1 loads
    exact ⟨text, document, (Disk.entry_eq_some found).2.2, reads, isPart⟩

/-- A document apart from the generated files has one text throughout. -/
theorem Tells.grown {area : Location → Prop} {first second : Disk} (grown : Grown area first second)
    (free : ∀ path, record.optimized = some path → ¬area (path.goal first.current)) :
    Tells second record part ↔ Tells first record part := by
  unfold Tells
  cases optimized : record.optimized with
  | none => exact Iff.rfl
  | some path =>
    simp only [grown.confined.current, grown.file_iff (free path optimized)]

/-- A document that was read apart from the generated files is read again later. -/
theorem Reads.later {area : Location → Prop} {first second : Disk} (grown : Grown area first second)
    (free : ∀ path, record.optimized = some path → ¬area (path.goal first.current))
    (reads : Reads first record part) : Reads second record part := by
  unfold Reads at reads ⊢
  cases optimized : record.optimized with
  | none =>
    rw [optimized] at reads
    exact reads
  | some path =>
    rw [optimized] at reads
    obtain ⟨document, loads, isPart⟩ := reads
    refine ⟨document, ?_, isPart⟩
    obtain ⟨text, found, _⟩ := Document.load_eq_ok.1 loads
    obtain ⟨_, passable, stands⟩ := Disk.entry_eq_some found
    have passableThere : second.Passable path := by
      intro passed member
      rw [grown.confined.current] at member
      exact grown.directories passed (passable passed member)
    rw [Document.load_congr (Disk.entry_congr grown.confined.current
      ⟨fun _ => passable, fun _ => passableThere⟩
      (((grown.file_iff (free path optimized)).2 stands).trans stands.symm))]
    exact loads

/-! ## A second run -/

theorem writeChanged_idle {path : Path} (reads : present.disk.readText path = .ok text) :
    (writeChanged path text).Yields present 0 present := by
  unfold writeChanged writeIfChanged holdsText
  refine Step.yields_onDisk.2 ⟨present.disk, ?_, rfl⟩
  rw [reads]
  simp

/-- Whether the files of inserts, from a number on, are there to be read. -/
def Standing (disk : Disk) (target : Path) (first : Nat) (inserts : List Insert) : Prop :=
  ∀ number insert, inserts[number]? = some insert →
    disk.readText ((File.code (first + number)).path target) = .ok insert.code ∧
      disk.readText ((File.source (first + number)).path target) = .ok insert.code

theorem Standing.append {disk : Disk} {first : Nat} (standing : Standing disk target first (front ++ found)) :
    Standing disk target first front ∧ Standing disk target (first + front.length) found := by
  refine ⟨fun number insert reads => standing number insert ?_, fun number insert reads => ?_⟩
  · rw [List.getElem?_append_left (List.getElem?_eq_some_iff.1 reads).1]
    exact reads
  · rw [Nat.add_assoc]
    refine standing (front.length + number) insert ?_
    rw [List.getElem?_append_right (by omega), Nat.add_sub_cancel_left]
    exact reads

/-- Adding inserts whose files are there writes nothing. -/
theorem addInserts_idle (standing : Standing present.disk target draft.functions.length found) :
    ∃ next, (addInserts target draft found).Yields present next present ∧
      next.written = draft.written ∧
      next.functions.length = draft.functions.length + found.length := by
  induction found generalizing draft with
  | nil => exact ⟨draft, Step.yields_pure.2 ⟨rfl, rfl⟩, rfl, rfl⟩
  | cons insert rest inductionHypothesis =>
    have whole : Standing present.disk target draft.functions.length ([insert] ++ rest) := standing
    obtain ⟨own, others⟩ := whole.append
    obtain ⟨code, source⟩ := own 0 insert rfl
    let middle : Draft :=
      { functions := draft.functions ++ [functionName target draft.functions.length]
        names := Ordered.put Prod.fst
          (insert.locator, functionName target draft.functions.length) draft.names
        manifest := draft.manifest.addAll insert.dependencies
        written := draft.written + 0 + 0 }
    have added : (addInsert target draft insert).Yields present middle present := by
      unfold addInsert
      exact Step.yields_bind.2 ⟨0, present, writeChanged_idle code,
        Step.yields_bind.2 ⟨0, present, writeChanged_idle source, Step.yields_pure.2 ⟨rfl, rfl⟩⟩⟩
    have length : middle.functions.length = draft.functions.length + 1 := List.length_append
    have behind : Standing present.disk target middle.functions.length rest := length ▸ others
    obtain ⟨next, ran, written, number⟩ := inductionHypothesis behind
    refine ⟨next, Step.yields_bind.2 ⟨middle, present, added, ran⟩, written, ?_⟩
    rw [number, length, List.length_cons]
    omega

/-- Collecting inserts whose files are there writes nothing. -/
theorem collect_idle (each : List.Forall₂ (Reads present.disk) records parts)
    (standing : Standing present.disk target draft.functions.length parts.flatten) :
    ∃ next, (collect target draft records).Yields present next present ∧
      (addInserts target draft parts.flatten).Yields present next present ∧
      next.written = draft.written := by
  induction each generalizing draft with
  | nil => exact ⟨draft, Step.yields_pure.2 ⟨rfl, rfl⟩, Step.yields_pure.2 ⟨rfl, rfl⟩, rfl⟩
  | @cons record part rest parts reads _ inductionHypothesis =>
    rw [List.flatten_cons] at standing
    obtain ⟨own, others⟩ := standing.append
    unfold collect
    unfold Reads at reads
    cases optimized : record.optimized with
    | none =>
      rw [optimized] at reads
      subst reads
      exact inductionHypothesis others
    | some path =>
      rw [optimized] at reads
      obtain ⟨document, loads, isPart⟩ := reads
      obtain ⟨middle, added, written, number⟩ := addInserts_idle own
      obtain ⟨next, ran, adding, total⟩ := inductionHypothesis (number ▸ others)
      refine ⟨next, ?_, addInserts_append.2 ⟨middle, present, added, adding⟩, total.trans written⟩
      exact Step.yields_bind.2 ⟨document, present, Step.yields_load.2 ⟨loads, rfl⟩,
        Step.yields_bind.2 ⟨part, present, Step.yields_ofOutcome.2 ⟨isPart, rfl⟩,
          Step.yields_bind.2 ⟨middle, present, added, ran⟩⟩⟩

/-- Files common to all that are there aren't written. -/
theorem writeCommon_idle (drafted : Drafted target start present draft inserts)
    (added : Added target start present draft inserts)
    (there : ∀ item ∈ commonFiles target inserts,
      present.disk.readText (item.1.path target) = .ok item.2) :
    (writeCommon target draft).Yields present 0 present := by
  unfold writeCommon
  rw [drafted.functions, drafted.names, added.manifest]
  have modules := there (.modules, _) List.mem_cons_self
  have manifest := there (.manifest, _) (List.mem_cons_of_mem _ List.mem_cons_self)
  have names := there (.names, _) (List.mem_cons_of_mem _ (List.mem_cons_of_mem _ List.mem_cons_self))
  exact Step.yields_bind.2 ⟨0, present, writeChanged_idle modules,
    Step.yields_bind.2 ⟨0, present, writeChanged_idle manifest,
      Step.yields_bind.2 ⟨0, present, writeChanged_idle names, Step.yields_pure.2 ⟨rfl, rfl⟩⟩⟩⟩

/-- What a run comes to when all files are there: it only builds the library. -/
def idleOutcome (settings : Settings) (toolbox : Command.Toolbox) (wanted cancelled : Bool)
    (functions : List String) (disk : Disk) : Except Failure LibraryReport :=
  if wanted then
    ((NativeBuild.ofProgram settings.cargo (directory settings.target)).run toolbox disk
      cancelled).map fun _ => ⟨functions, 0, true⟩
  else .ok ⟨functions, 0, false⟩

section Binarize

variable {settings : Settings} {toolbox : Command.Toolbox} {wanted cancelled : Bool}
  {report : LibraryReport} {later : Workspace}

/-- Building the library leaves the files as they are. -/
theorem build_perform : (build settings toolbox cancelled).perform later =
    ((NativeBuild.ofProgram settings.cargo (directory settings.target)).run toolbox later.disk
      cancelled, later) := rfl

/-- A run on files that are all there writes nothing. -/
theorem binarize_idle (sound : later.disk.Sound)
    (each : List.Forall₂ (Reads later.disk) later.foreign.records parts) (some_ : parts.flatten ≠ [])
    (held : ∀ item ∈ files settings.target parts.flatten,
      later.disk.readText (item.1.path settings.target) = .ok item.2) :
    (binarize settings toolbox wanted cancelled).perform later =
      (idleOutcome settings toolbox wanted cancelled
        ((List.range parts.flatten.length).map (functionName settings.target)) later.disk, later) := by
  have standing : Standing later.disk settings.target Draft.empty.functions.length parts.flatten := by
    intro number insert reads
    have first : Draft.empty.functions.length + number = number := Nat.zero_add number
    rw [first]
    have code : (File.code number, insert.code) ∈ codeFiles parts.flatten :=
      mem_codeFiles.2 ⟨number, insert, reads, Or.inl rfl⟩
    have source : (File.source number, insert.code) ∈ codeFiles parts.flatten :=
      mem_codeFiles.2 ⟨number, insert, reads, Or.inr rfl⟩
    exact ⟨held (.code number, insert.code) (List.mem_append_left _ code),
      held (.source number, insert.code) (List.mem_append_left _ source)⟩
  obtain ⟨draft, collected, adding, noneWritten⟩ := collect_idle each standing
  have drafted := (Drafted.initial sound).addAll adding
  have added := (Added.initial sound).addAll adding
  rw [List.nil_append] at drafted added
  have common : (writeCommon settings.target draft).Yields later 0 later :=
    writeCommon_idle drafted added fun item member => held item (List.mem_append_right _ member)
  have found : draft.functions.isEmpty = false := by
    rw [drafted.functions, List.isEmpty_eq_false_iff]
    simpa only [ne_eq, List.map_eq_nil_iff, List.range_eq_nil, List.length_eq_zero_iff] using some_
  have nothing : draft.written + 0 = 0 := noneWritten
  unfold binarize idleOutcome
  rw [Step.perform_look_bind, Step.perform_bind_of_yields collected]
  simp only [found, Bool.false_eq_true, if_false]
  rw [Step.perform_bind_of_yields common]
  simp only [nothing]
  rw [← drafted.functions]
  cases wanted with
  | false => rfl
  | true =>
    simp only [if_true]
    rw [Step.perform_bind, build_perform]
    cases (NativeBuild.ofProgram settings.cargo (directory settings.target)).run toolbox later.disk
      cancelled <;> rfl

/-- A library that mirrors inserts, and the report of the run that wrote it. -/
structure Mirrors (target : Path) (before after : Disk) (report : LibraryReport)
    (inserts : List Insert) : Prop where
  functions : report.functions = (List.range inserts.length).map (functionName target)
  distinct : report.functions.Nodup
  codes : ∀ number insert, inserts[number]? = some insert →
    after.readText ((File.code number).path target) = .ok insert.code ∧
      after.readText ((File.source number).path target) = .ok insert.code
  modules : after.readText (File.modules.path target) = .ok (modulesText report.functions)
  manifest : ∃ manifest : Manifest,
    after.readText (File.manifest.path target) = .ok manifest.render ∧
      manifest.name = crateName ∧ Ordered.Ascending Prod.fst manifest.dependencies ∧
      ∀ crate, manifest.version? crate = (Manifest.baseline.lookup crate).or
        ((inserts.flatMap Insert.dependencies).lookup crate)
  written : report.written = changed before target (files target inserts) +
    unread before target (files target inserts)

/-- The manifest of a library has the baseline crates and the first version of every other. -/
theorem version?_manifestOf (crate : String) : (manifestOf inserts).version? crate =
    (Manifest.baseline.lookup crate).or ((inserts.flatMap Insert.dependencies).lookup crate) := by
  unfold manifestOf
  rw [Manifest.version?_addAll]
  rfl

/-- The owners of inserts, one for each. -/
def owners (records : List Record) (parts : List (List Insert)) : List String :=
  (records.zip parts).flatMap fun pair => pair.2.map fun _ => pair.1.id

/-- Inserts are in the order of the ids of their records. -/
theorem owners_ascending (ascending : Ordered.Ascending Record.id records) :
    (owners records parts).Pairwise fun first second => first = second ∨ first < second := by
  induction ascending generalizing parts with
  | nil => exact List.Pairwise.nil
  | @cons record rest above _ inductionHypothesis =>
    cases parts with
    | nil => exact List.Pairwise.nil
    | cons part parts =>
      unfold owners
      rw [List.zip_cons_cons, List.flatMap_cons, List.pairwise_append]
      refine ⟨?_, inductionHypothesis, fun first own second later => Or.inr ?_⟩
      · rw [List.map_const', List.pairwise_replicate]
        exact Or.inr (Or.inl rfl)
      · obtain ⟨_, _, rfl⟩ := List.mem_map.1 own
        obtain ⟨pair, among, inside⟩ := List.mem_flatMap.1 later
        obtain ⟨_, _, rfl⟩ := List.mem_map.1 inside
        exact above pair.1 (List.of_mem_zip among).1

/-- Writing the files common to all changes files of the library only. -/
theorem grown_writeCommon (sound : present.disk.Sound)
    (ran : (writeCommon target draft).Yields present count after) :
    Grown (Generated target present.disk.current) present.disk after.disk := by
  unfold writeCommon at ran
  obtain ⟨_, first, wroteModules, ran⟩ := Step.yields_bind.1 ran
  obtain ⟨_, second, wroteManifest, ran⟩ := Step.yields_bind.1 ran
  obtain ⟨_, third, wroteNames, ran⟩ := Step.yields_bind.1 ran
  obtain ⟨_, rfl⟩ := Step.yields_pure.1 ran
  have modules := (writeChanged_grown .modules sound wroteModules).2.1
  have manifest := (writeChanged_grown .manifest modules.confined.sound wroteManifest).2.1
  have names := (writeChanged_grown .names manifest.confined.sound wroteNames).2.1
  rw [manifest.confined.current, modules.confined.current] at names
  rw [modules.confined.current] at manifest
  exact ((modules.mono fun _ same => ⟨_, same⟩).trans (manifest.mono fun _ same => ⟨_, same⟩)).trans
    (names.mono fun _ same => ⟨_, same⟩)

/-- A run with inserts adds them as their documents are read, and leaves all files of the library. -/
theorem written_files (sound : before.disk.Sound)
    (ran : (binarize settings toolbox wanted cancelled).Yields before report after)
    (some_ : report.functions ≠ []) :
    ∃ parts draft present,
      List.Forall₂ (ReadAlong settings.target .empty before parts.flatten)
        before.foreign.records parts ∧
      (addInserts settings.target .empty parts.flatten).Yields before draft present ∧
      Grown (Generated settings.target before.disk.current) present.disk after.disk ∧
      report.functions = (List.range parts.flatten.length).map (functionName settings.target) ∧
      Written settings.target before after (files settings.target parts.flatten) report.written := by
  obtain ⟨draft, present, collected, isReport, ⟨none, _⟩ | ⟨_, count, total, common⟩⟩ :=
    yields_binarize ran
  · exact absurd (isReport.trans none) some_
  · obtain ⟨parts, along, adding⟩ := collect_eq collected
    have drafted := (Drafted.initial sound).addAll adding
    have added := (Added.initial sound).addAll adding
    rw [List.nil_append] at drafted added
    have written := added.common drafted.functions drafted.names common
    rw [← total] at written
    have grown := grown_writeCommon drafted.confined.sound common
    rw [drafted.confined.current] at grown
    exact ⟨parts, draft, present, along, adding, grown, isReport.trans drafted.functions, written⟩

/-- The files of inserts, with their functions in the report, make a library. -/
theorem Written.mirrors
    (written : Written target start after (files target inserts) report.written)
    (functions : report.functions = (List.range inserts.length).map (functionName target)) :
    Mirrors target start.disk after.disk report inserts := by
  have common : ∀ item ∈ commonFiles target inserts,
      after.disk.readText (item.1.path target) = .ok item.2 :=
    fun item member => written.holds item (List.mem_append_right _ member)
  refine ⟨functions, ?_, fun number insert reads => ⟨?_, ?_⟩, ?_, ?_, written.counted⟩
  · rw [functions]
    exact List.Pairwise.map _ (fun _ _ different same => different (functionName_inj same))
      List.nodup_range
  · exact written.holds (.code number, insert.code)
      (List.mem_append_left _ (mem_codeFiles.2 ⟨number, insert, reads, Or.inl rfl⟩))
  · exact written.holds (.source number, insert.code)
      (List.mem_append_left _ (mem_codeFiles.2 ⟨number, insert, reads, Or.inr rfl⟩))
  · rw [functions]
    exact common (.modules, _) List.mem_cons_self
  · refine ⟨manifestOf inserts, ?_, Manifest.name_addAll, ?_, version?_manifestOf⟩
    · exact common (.manifest, _) (List.mem_cons_of_mem _ List.mem_cons_self)
    · exact Manifest.ascending_addAll (Ordered.ascending_ofList _ _)

/-- Between the start and a document that is read only files of the library change, and so after
it. -/
theorem ReadAlong.around {draft : Draft} (sound : start.disk.Sound)
    (adding : (addInserts target .empty inserts).Yields start draft present)
    (rest : Grown (Generated target start.disk.current) present.disk after.disk)
    (read : ReadAlong target .empty start inserts record part) :
    ∃ disk, Grown (Generated target start.disk.current) start.disk disk ∧
      Grown (Generated target start.disk.current) disk after.disk ∧ Reads disk record part := by
  obtain ⟨front, back, middle, there, split, first, reads⟩ := read
  rw [split] at adding
  obtain ⟨_, _, begun, others⟩ := addInserts_append.1 adding
  obtain ⟨rfl, rfl⟩ := first.unique begun
  have early := grown_addInserts sound first
  have late := grown_addInserts early.confined.sound others
  rw [early.confined.current] at late
  exact ⟨there.disk, early, late.trans rest, reads⟩

theorem Reads.insertsOf {first disk : Disk} (reads : Reads disk record part)
    (confined : Confined (Generated target first.current) first disk) :
    InsertsOf target first record part := by
  unfold Reads at reads
  unfold InsertsOf
  cases optimized : record.optimized with
  | none =>
    rw [optimized] at reads
    exact reads
  | some path =>
    rw [optimized] at reads
    obtain ⟨document, loads, isPart⟩ := reads
    exact ⟨disk, document, confined, loads, isPart⟩

/-- A library mirrors the inserts that its run read: one number for each, in the order of the
documents and their records, the code of each in the files of its number, and the texts common to
all.  When the documents are apart from the library these are the inserts that stood there before,
and that stand there after.  As long as the documents give these inserts and the files stay, every
later run writes nothing, and reports no file as written. -/
theorem library_mirrored (sound : before.disk.Sound)
    (ran : (binarize settings toolbox wanted cancelled).Yields before report after)
    (some_ : report.functions ≠ []) :
    ∃ parts, List.Forall₂ (InsertsOf settings.target before.disk) before.foreign.records parts ∧
      (before.foreign.Sorted → (owners before.foreign.records parts).Pairwise
        fun first second => first = second ∨ first < second) ∧
      Mirrors settings.target before.disk after.disk report parts.flatten ∧
      after.foreign = before.foreign ∧
      (Apart settings.target before.disk.current before.foreign.records →
        List.Forall₂ (Tells before.disk) before.foreign.records parts ∧
        List.Forall₂ (Reads after.disk) before.foreign.records parts) ∧
      ∀ (later : Workspace) (other : Command.Toolbox) (again stopped : Bool), later.disk.Sound →
        later.foreign.records = before.foreign.records →
        (∀ file : File, later.disk.readText (file.path settings.target) =
          after.disk.readText (file.path settings.target)) →
        List.Forall₂ (Reads later.disk) before.foreign.records parts →
        (binarize settings other again stopped).perform later =
          (idleOutcome settings other again stopped report.functions later.disk, later) := by
  obtain ⟨parts, draft, present, along, adding, rest, functions, written⟩ :=
    written_files sound ran some_
  have found : parts.flatten ≠ [] := by
    intro none
    rw [none] at functions
    exact some_ functions
  have around : ∀ {record part}, ReadAlong settings.target .empty before parts.flatten record part →
      ∃ disk, Grown (Generated settings.target before.disk.current) before.disk disk ∧
        Grown (Generated settings.target before.disk.current) disk after.disk ∧
        Reads disk record part := fun read => read.around sound adding rest
  refine ⟨parts, along.imp fun record part read => ?_, fun sorted => owners_ascending sorted,
    written.mirrors functions, written.foreign, fun apart => ?_, ?_⟩
  · obtain ⟨disk, early, _, reads⟩ := around read
    exact reads.insertsOf early.confined
  · have both := List.forall₂_and_left _ _ |>.2 ⟨apart, along⟩
    refine ⟨both.imp ?_, both.imp ?_⟩
    · rintro record part ⟨free, read⟩
      obtain ⟨disk, early, _, reads⟩ := around read
      exact (Tells.grown early free).1 reads.tells
    · rintro record part ⟨free, read⟩
      obtain ⟨disk, early, late, reads⟩ := around read
      refine reads.later late fun path optimized => ?_
      rw [early.confined.current]
      exact free path optimized
  · intro later other again stopped soundLater records files each
    rw [functions]
    apply binarize_idle soundLater (records ▸ each) found
    intro item member
    rw [files]
    exact written.holds item member

end Binarize

/-! ## A target behind a directory that is gone -/

theorem apart_keptStart :
    Apart nativeSettings.target keptStart.disk.current keptStart.foreign.records := by
  rintro record member path optimized ⟨file, same⟩
  have isRecord : record = { Record.ofId "p" with optimized := some (.ofText "d.xmir") } :=
    List.mem_singleton.1 member
  rw [isRecord] at optimized
  rw [← Option.some.inj optimized, File.goal_path] at same
  have target : nativeSettings.target.goal keptStart.disk.current = ["w", "t"] := by decide
  have goal : Path.goal keptStart.disk.current (.ofText "d.xmir") = ["w", "d.xmir"] := by decide
  rw [target, goal] at same
  simp at same

/-- After a run the files hold the insert, and a second run at once writes nothing. -/
theorem sample_mirrored : keptStart.disk.Sound ∧
    (binarize nativeSettings (fun _ => none) false false).Yields keptStart
      ⟨["t0"], 5, false⟩ (collected keptStart).2 ∧
    (∃ inserts, Mirrors nativeSettings.target keptStart.disk (collected keptStart).2.disk
      ⟨["t0"], 5, false⟩ inserts) ∧
    (binarize nativeSettings (fun _ => none) false false).Yields (collected keptStart).2
      ⟨["t0"], 0, false⟩ (collected keptStart).2 := by
  have sound : keptStart.disk.Sound := Disk.sound_of_entries (by decide) (by decide)
  obtain ⟨parts, _, _, mirrors, foreign, apart, idle⟩ :=
    library_mirrored sound keptRun_yields (by simp)
  refine ⟨sound, keptRun_yields, ⟨_, mirrors⟩, ?_⟩
  have soundAfter := (written_binarize sound keptRun_yields (by simp)).1
  exact idle _ (fun _ => none) false false soundAfter (congrArg Catalog.records foreign)
    (fun _ => rfl) (apart apart_keptStart).2

/-- Settings whose target is reached through a directory beside it. -/
def aroundSettings : Settings := { target := .ofText "x/../t" }

/-- The project after a run into that target, when the directory beside it is gone. -/
def aroundStart : Workspace :=
  let ran := ((binarize aroundSettings (fun _ => none) false false).perform keptStart).2
  { ran with disk := ran.disk.erase ["w", "x"] }

/-- What a second run comes to: one file is written again, although every file is up to date. -/
theorem aroundRun_facts :
    (aroundStart.disk.directoryAt aroundStart.disk.current = true ∧
      ∀ other ∈ aroundStart.disk.entries, aroundStart.disk.directoryAt other.1.dropLast = true) ∧
    ((binarize aroundSettings (fun _ => none) false false).perform aroundStart).1 =
      .ok ⟨["xxxxxt0"], 1, false⟩ ∧
    aroundStart.foreign.records =
      [{ Record.ofId "p" with optimized := some (.ofText "d.xmir") }] ∧
    (Document.load aroundStart.disk (.ofText "d.xmir")).bind Document.inserts =
      .ok [⟨"p:2", "one", []⟩] ∧
    changed aroundStart.disk aroundSettings.target
      (files aroundSettings.target [⟨"p:2", "one", []⟩]) = 0 ∧
    (files aroundSettings.target [⟨"p:2", "one", []⟩]).countP (fun item =>
      aroundStart.disk.readText (item.1.path aroundSettings.target) != .ok item.2) = 5 := by
  decide +kernel

/-- Not every run reports the number of files whose content was another one, be it at their places
or as their paths are read: behind a directory that is gone the first file is written once more. -/
theorem written_overcounted :
    ¬∀ (settings : Settings) (toolbox : Command.Toolbox) (wanted cancelled : Bool)
      (report : LibraryReport) (before after : Workspace) (inserts : List Insert),
      before.disk.Sound →
      (binarize settings toolbox wanted cancelled).Yields before report after →
      report.functions ≠ [] →
      Gathered settings.target before.disk before.foreign.records inserts →
      report.written = changed before.disk settings.target (files settings.target inserts) ∨
        report.written = (files settings.target inserts).countP fun item =>
          before.disk.readText (item.1.path settings.target) != .ok item.2 := by
  intro counted
  obtain ⟨⟨current, parents⟩, ran, records, reading, changed, unread⟩ := aroundRun_facts
  have sound := Disk.sound_of_entries current parents
  have gathered : Gathered aroundSettings.target aroundStart.disk aroundStart.foreign.records
      [⟨"p:2", "one", []⟩] := by
    rw [records]
    refine ⟨[[⟨"p:2", "one", []⟩]], .cons ?_ .nil, rfl⟩
    cases loads : Document.load aroundStart.disk (.ofText "d.xmir") with
    | error failure =>
      rw [loads] at reading
      exact absurd reading (by simp [Except.bind])
    | ok document =>
      rw [loads] at reading
      exact ⟨_, document, .refl sound, loads, reading⟩
  have either := counted _ _ _ _ _ _ _ _ sound (Step.yields_perform ran) (by simp) gathered
  rw [changed, unread] at either
  exact absurd either (by decide)

end Library

end EoAssembly.Native
