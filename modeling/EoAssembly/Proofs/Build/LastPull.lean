import EoAssembly.Proofs.Build.Places
import EoAssembly.Proofs.Build.Settled

/-!
Contract: the last pull of a settled build sees to every name.

The last pull adds no record and makes no document, since no later step takes
these away.  A name that it sees to is an object of the project, or its source is
recorded and there, or its log is there alone; and what it does for one name
undoes nothing of what it did for another, when their files are apart.

Owns what pulling a name does in the last cycle, `Accounted`, `Undisturbed`, and
the invariant of the last pull.
-/

namespace EoAssembly

/-- A store that fetches touches its own files only. -/
def Remote.KeepsTo (remote : Remote) (own : Location → Prop) : Prop :=
  ∀ name (disk : Disk), disk.Sound →
    (remote.fetch name disk).2.Sound ∧ (remote.fetch name disk).2.current = disk.current ∧
    ∀ location, ¬own location →
      (remote.fetch name disk).2.entryAt? location = disk.entryAt? location

namespace Build

open Disk (Touches)
open ObjectName (Placeable checkPlace placeable_of_checkPlace)

variable {settings : Settings} {remote : Remote} {last : Catalog} {before after : Workspace}
  {name : String}

/-! ## What to do about a source -/

section Choices

variable {disk : Disk} {overwrite : Bool} {source log : Path}

theorem pullChoice_leave (leaves : pullChoice disk overwrite source log = .leave) :
    disk.exists? source = false ∧ disk.exists? log = true := by
  unfold pullChoice at leaves
  split at leaves
  · exact absurd leaves (by simp)
  · split at leaves
    · exact absurd leaves (by simp)
    · next missing =>
      split at leaves
      · next logged => exact ⟨by simpa using missing, logged⟩
      · exact absurd leaves (by simp)

theorem pullChoice_keep (keeps : pullChoice disk overwrite source log = .keep) :
    overwrite = false ∧ disk.exists? source = true := by
  unfold pullChoice at keeps
  split at keeps
  · exact absurd keeps (by simp)
  · next off =>
    split at keeps
    · next there => exact ⟨by simpa using off, there⟩
    · split at keeps <;> exact absurd keeps (by simp)

theorem pullChoice_fetch (fetches : pullChoice disk overwrite source log = .fetch)
    (off : overwrite = false) : disk.exists? source = false := by
  unfold pullChoice at fetches
  rw [off] at fetches
  split at fetches
  · next wrong => exact absurd wrong (by simp)
  · split at fetches
    · exact absurd fetches (by simp)
    · next missing => simpa using missing

end Choices

/-! ## One name in the last pull -/

/-- A pulled source that is recorded in the last cycle had a record and a document. -/
theorem recordPulled_settled {hash : Option String} (sorted : before.foreign.Sorted)
    (grown : last.Grows before.foreign) (back : after.foreign.Grows last)
    (ran : (recordPulled settings remote name (pulledPlace settings.target name) hash).Yields
      before () after) :
    ∃ record, (Step.updateForeign name (asPulled (pulledPlace settings.target name)
      (ObjectName.split name).2 hash)).Yields before record after := by
  have returns : ∀ mark : Record → Bool,
      (∀ {old new : Record}, old.Within new → mark old = true → mark new = true) →
      Marked mark after.foreign name → Marked mark before.foreign name := by
    intro mark lasting marked
    exact (marked.later lasting back).later lasting grown
  obtain ⟨_, between, record, updated, ranAdd, ranUpdate, rest⟩ := yields_recordPulled.1 ran
  have isThere : ∃ old, before.foreign.find? name = some old := by
    have stands : Marked (fun _ => true) updated.foreign name :=
      ⟨record, updateForeign_find? ranUpdate, rfl⟩
    have sortedUpdated := (growsFrom_invariant remote before.foreign).update name _
      (.pulled _ _ hash) between record updated
      ((growsFrom_invariant remote before.foreign).add name before _ between ⟨sorted, .refl _⟩
        ranAdd) ranUpdate
    have growing := growsFrom_invariant remote updated.foreign
    have grownRest : updated.foreign.Grows after.foreign := by
      rcases rest with ⟨_, place, ranParse⟩ | ⟨_, same⟩
      · exact (growing.upkeep.parseObject name updated place after ⟨sortedUpdated.1, .refl _⟩
          ranParse).2
      · rw [← same]
        exact .refl _
    obtain ⟨old, found, _⟩ := returns (fun _ => true) (fun _ there => there)
      (stands.later (fun _ there => there) grownRest)
    exact ⟨old, found⟩
  obtain ⟨old, found⟩ := isThere
  have sameBetween : between = before := by
    rcases addForeign_catalog ranAdd with ⟨_, same⟩ | ⟨missing, _⟩
    · exact same
    · rw [missing] at found
      exact absurd found (by simp)
  rw [sameBetween] at ranUpdate
  rcases rest with ⟨noDocument, place, ranParse⟩ | ⟨_, same⟩
  · obtain ⟨marked, foundMarked, hasDocument⟩ :=
      returns (fun record => record.xmir.isSome) Record.Within.xmir (parseObject_marks ranParse)
    obtain ⟨other, foundOther, changed, _⟩ := updateForeign_catalog ranUpdate
    rw [foundMarked] at foundOther
    rw [changed, ← Option.some.inj foundOther, Option.isNone_iff_eq_none] at noDocument
    have wrong : marked.xmir = none := noDocument
    have holds : marked.xmir.isSome = true := hasDocument
    rw [wrong] at holds
    exact absurd holds (by simp)
  · rw [same] at ranUpdate
    exact ⟨record, ranUpdate⟩

/-- What the last pull does for a name that is no object of the project. -/
inductive LastPull (settings : Settings) (remote : Remote) (name : String) :
    Workspace → Workspace → Prop where
  /-- The log is there, and the source is not. -/
  | left {before : Workspace}
    (logged : before.disk.exists? (logPlace settings.protocols name) = true)
    (missing : before.disk.exists? (pulledPlace settings.target name) = false) :
    LastPull settings remote name before before
  /-- The source is there and recorded. -/
  | kept {before : Workspace}
    (there : before.disk.exists? (pulledPlace settings.target name) = true)
    (recorded : isRecorded before.foreign name (pulledPlace settings.target name) = true) :
    LastPull settings remote name before before
  /-- The source is there and becomes recorded. -/
  | recorded {before after : Workspace} {record : Record} {hash : Option String}
    (there : before.disk.exists? (pulledPlace settings.target name) = true)
    (ran : (Step.updateForeign name (asPulled (pulledPlace settings.target name)
      (ObjectName.split name).2 hash)).Yields before record after) :
    LastPull settings remote name before after
  /-- The source is fetched and recorded. -/
  | fetched {before between after : Workspace} {record : Record} {hash : Option String}
    (ranFetch : (fetchSource remote name (pulledPlace settings.target name)
      (logPlace settings.protocols name)).Yields before () between)
    (ran : (Step.updateForeign name (asPulled (pulledPlace settings.target name)
      (ObjectName.split name).2 hash)).Yields between record after) :
    LastPull settings remote name before after

theorem pullPinned_settled {hash : Option String} {count : Nat} (sorted : before.foreign.Sorted)
    (grown : last.Grows before.foreign) (back : after.foreign.Grows last)
    (ran : (pullPinned settings remote name hash).Yields before count after) :
    LastPull settings remote name before after := by
  cases yields_pullPinned.1 ran with
  | left leave => exact .left (pullChoice_leave leave).2 (pullChoice_leave leave).1
  | fetched _ ranFetch ranRecord =>
    have growing := growsFrom_invariant remote before.foreign
    have atBetween := (growing.supply settings).fetchSource trivial _ _ before () _
      ⟨sorted, .refl _⟩ ranFetch
    obtain ⟨record, updated⟩ :=
      recordPulled_settled atBetween.1 (grown.trans atBetween.2) back ranRecord
    exact .fetched ranFetch updated
  | recorded keep _ ranRecord =>
    obtain ⟨record, updated⟩ := recordPulled_settled sorted grown back ranRecord
    exact .recorded (pullChoice_keep keep).2 updated
  | kept keep recorded => exact .kept (pullChoice_keep keep).2 recorded

/-! ## What the last pull leaves alone -/

/-- The sibling that is written before the catalog file of a build. -/
def siblingPath (target : Path) : Path := (catalogPath target).extended ".tmp"

/-- A name that an optimized document refers to is an object of the project, or its
source is recorded and there, or its log is there and nothing at the place of its
source. -/
def Accounted (settings : Settings) (present : Workspace) (name : String) : Prop :=
  isLocal present.foreign name = true ∨
  (isRecorded present.foreign name (pulledPlace settings.target name) = true ∧
    present.disk.exists? (pulledPlace settings.target name) = true) ∨
  (present.disk.exists? (logPlace settings.protocols name) = true ∧
    present.disk.exists? (pulledPlace settings.target name) = false)

/-- A location where no pull makes a file or a directory. -/
structure Untouched (settings : Settings) (own : Location → Prop) (current : Location)
    (location : Location) : Prop where
  catalog : location ≠ (catalogPath settings.target).goal current
  sibling : location ≠ (siblingPath settings.target).goal current
  source : ∀ name, checkPlace name = .ok () →
    location ∉ (pulledPlace settings.target name).way current
  log : ∀ name, checkPlace name = .ok () →
    location ∉ (logPlace settings.protocols name).way current
  store : ¬own location

/-- A document that is no file that a pull writes and no file of the store, and
that is not reached through a directory that either makes. -/
structure Aloof (settings : Settings) (own : Location → Prop) (current : Location)
    (document : Path) : Prop where
  left : ∀ passed ∈ document.left current,
    passed ∈ settings.target.left current ∨ Untouched settings own current passed
  catalog : document.goal current ≠ (catalogPath settings.target).goal current
  sibling : document.goal current ≠ (siblingPath settings.target).goal current
  source : ∀ name, checkPlace name = .ok () →
    document.goal current ≠ (pulledPlace settings.target name).goal current
  log : ∀ name, checkPlace name = .ok () →
    document.goal current ≠ (logPlace settings.protocols name).goal current
  store : ¬own (document.goal current)

/-- What is pulled for another name leaves the files of a name alone: no file of the
other is at or below the place of its source, and its log is no sibling of the catalog
file. -/
structure Apart (settings : Settings) (current : Location) (name other : String) : Prop where
  source : (pulledPlace settings.target name).goal current ∉
    (pulledPlace settings.target other).way current
  log : (pulledPlace settings.target name).goal current ∉
    (logPlace settings.protocols other).way current
  sibling : (logPlace settings.protocols name).goal current ≠
    (siblingPath settings.target).goal current

/-- The files of different names are apart. -/
def NamesApart (settings : Settings) (current : Location) (names : List String) : Prop :=
  ∀ name ∈ names, ∀ other ∈ names, name ≠ other →
    checkPlace name = .ok () → checkPlace other = .ok () → Apart settings current name other

/-- The files of a store are neither below the target or the protocols directory nor
on the way there. -/
def StoreApart (settings : Settings) (current : Location) (own : Location → Prop) : Prop :=
  ∀ location, own location →
    location ∉ settings.target.left current ∧ location ∉ settings.protocols.left current ∧
    ¬settings.target.goal current <+: location ∧ ¬settings.protocols.goal current <+: location

/-- The names that optimized documents refer to and that are no objects of the project. -/
def soughtNames (present : Workspace) : List String :=
  (referredNames present.disk present.foreign).filter fun name =>
    !isLocal present.foreign name

/-- The files of the optimized documents and of the names they refer to are apart. -/
structure Undisturbed (settings : Settings) (own : Location → Prop) (present : Workspace) :
    Prop where
  documents : ∀ record ∈ present.foreign.records, ∀ document, record.optimized = some document →
    Aloof settings own present.disk.current document
  names : NamesApart settings present.disk.current (soughtNames present)

section Places

variable (settings : Settings) (current : Location) (placeable : Placeable name)

include placeable

theorem components_pulledPlace : (pulledPlace settings.target name).components =
    settings.target.components ++
      (pulledDirectory :: ObjectName.segments "eo" name).map Path.Component.named :=
  components_stage isName_pulled isExtension_source placeable settings.target

theorem components_logPlace : (logPlace settings.protocols name).components =
    settings.protocols.components ++
      (ObjectName.segments "log" name).map Path.Component.named :=
  ObjectName.components_place isExtension_log.noSlash placeable settings.protocols

theorem goal_pulledPlace : (pulledPlace settings.target name).goal current =
    settings.target.goal current ++ pulledDirectory :: ObjectName.segments "eo" name :=
  Path.goal_of_names current (components_pulledPlace settings placeable)

theorem left_pulledPlace :
    (pulledPlace settings.target name).left current = settings.target.left current :=
  Path.left_of_names current (components_pulledPlace settings placeable)

theorem endsInName_pulledPlace : (pulledPlace settings.target name).EndsInName :=
  endsInName_stage isName_pulled isExtension_source placeable settings.target

theorem way_target_pulledPlace {reached : Location} (member : reached ∈ settings.target.way current) :
    reached ∈ (pulledPlace settings.target name).way current :=
  (Path.mem_way_of_names current (components_pulledPlace settings placeable)).2 (Or.inl member)

theorem goal_logPlace : (logPlace settings.protocols name).goal current =
    settings.protocols.goal current ++ ObjectName.segments "log" name :=
  Path.goal_of_names current (components_logPlace settings placeable)

theorem left_logPlace :
    (logPlace settings.protocols name).left current = settings.protocols.left current :=
  Path.left_of_names current (components_logPlace settings placeable)

theorem goal_pulledPlace_ne {file : String} (other : file ≠ pulledDirectory) :
    (pulledPlace settings.target name).goal current ≠ settings.target.goal current ++ [file] := by
  rw [goal_pulledPlace settings current placeable]
  intro same
  exact other (List.cons.inj (List.append_cancel_left same)).1.symm

end Places

theorem goal_siblingPath {target : Path} (written : target.IsText) (current : Location) :
    (siblingPath target).goal current =
      target.goal current ++ [Catalogs.foreignFile ++ ".tmp"] :=
  @goal_sibling target current ⟨catalogPath target, []⟩ written rfl

/-! ## The invariant of the last pull -/

/-- What the last pull keeps, with the names it has seen to. -/
structure Kept (settings : Settings) (own : Location → Prop) (last : Workspace)
    (seen : List String) (present : Workspace) : Prop where
  sound : present.disk.Sound
  current : present.disk.current = last.disk.current
  path : present.foreign.path = catalogPath settings.target
  passable : present.disk.Passable settings.target
  documents : ∀ document, Aloof settings own last.disk.current document → ∀ content,
    present.disk.entry? document = some (.file content) ↔
      last.disk.entry? document = some (.file content)
  optimized : ∀ id, (present.foreign.find? id).map Record.optimized =
    (last.foreign.find? id).map Record.optimized
  ofProject : ∀ name, isLocal present.foreign name = isLocal last.foreign name
  accounted : ∀ name ∈ seen, isLocal last.foreign name = false →
    checkPlace name = .ok () ∧ Accounted settings present name

/-- A pulled source is there when something stands at the goal of its place. -/
theorem exists?_pulledPlace (placeable : Placeable name) {disk : Disk}
    (passable : disk.Passable settings.target) :
    disk.exists? (pulledPlace settings.target name) =
      (disk.entryAt? ((pulledPlace settings.target name).goal disk.current)).isSome := by
  unfold Disk.exists?
  rw [Disk.entry_of_name (endsInName_pulledPlace settings placeable)]
  intro passed member
  rw [left_pulledPlace settings disk.current placeable] at member
  exact passable passed member

theorem isRecorded_congr {first second : Catalog} {source : Path}
    (same : second.find? name = first.find? name) :
    isRecorded second name source = isRecorded first name source := by
  unfold isRecorded
  rw [same]

theorem isRecorded_iff {catalog : Catalog} {source : Path} :
    isRecorded catalog name source = true ↔ ∃ record path, catalog.find? name = some record ∧
      record.pulled = true ∧ record.source = some path ∧ path.same source = true := by
  unfold isRecorded
  simp only [Option.any_eq_true, Bool.and_eq_true]
  constructor
  · rintro ⟨record, found, pulled, path, isSource, same⟩
    exact ⟨record, path, found, pulled, isSource, same⟩
  · rintro ⟨record, path, found, pulled, isSource, same⟩
    exact ⟨record, found, pulled, path, isSource, same⟩

theorem isRecorded_of_pulled {catalog : Catalog} {record : Record} {source : Path}
    (found : catalog.find? name = some record) (pulled : record.pulled = true)
    (isSource : record.source = some source) : isRecorded catalog name source = true :=
  isRecorded_iff.2 ⟨record, source, found, pulled, isSource, beq_self_eq_true _⟩

namespace Kept

variable {own : Location → Prop} {start : Workspace} {seen : List String}

/-- A file operation apart from what was seen to keeps the invariant. -/
theorem touch {written gone made : List Location}
    (kept : Kept settings own start seen before)
    (touches : Touches written gone made before.disk after.disk)
    (samePath : after.foreign.path = before.foreign.path)
    (sameOptimized : ∀ id, (after.foreign.find? id).map Record.optimized =
      (before.foreign.find? id).map Record.optimized)
    (sameProject : ∀ other, isLocal after.foreign other = isLocal before.foreign other)
    (sameSeen : ∀ other ∈ seen, after.foreign.find? other = before.foreign.find? other)
    (untouched : ∀ passed, Untouched settings own start.disk.current passed →
      passed ∉ written ∧ passed ∉ gone ∧ passed ∉ made)
    (documents : ∀ document, Aloof settings own start.disk.current document →
      document.goal start.disk.current ∉ written ∧ document.goal start.disk.current ∉ gone)
    (sources : ∀ other ∈ seen, isLocal start.foreign other = false → checkPlace other = .ok () →
      (pulledPlace settings.target other).goal start.disk.current ∉ written ∧
      (pulledPlace settings.target other).goal start.disk.current ∉ gone ∧
      (pulledPlace settings.target other).goal start.disk.current ∉ made ∧
      (logPlace settings.protocols other).goal start.disk.current ∉ gone) :
    Kept settings own start seen after where
  sound := touches.sound
  current := touches.current.trans kept.current
  path := samePath.trans kept.path
  passable := touches.passable kept.passable
  optimized id := (sameOptimized id).trans (kept.optimized id)
  ofProject other := (sameProject other).trans (kept.ofProject other)
  documents document aloof content := by
    rw [← kept.documents document aloof content]
    obtain ⟨unwritten, notGone⟩ := documents document aloof
    have left := aloof.left
    rw [← kept.current] at unwritten notGone left
    have samePassable : after.disk.Passable document ↔ before.disk.Passable document := by
      refine ⟨fun passable passed member => ?_, touches.passable⟩
      rcases left passed member with above | clear
      · exact kept.passable passed above
      · rw [kept.current] at clear
        obtain ⟨unwritten, notGone, unmade⟩ := untouched passed clear
        rw [← Disk.directoryAt_congr (touches.untouched unwritten notGone unmade)]
        exact passable passed (by rw [touches.current]; exact member)
    rcases touches.others _ unwritten notGone with same | ⟨_, nothing, directory⟩
    · rw [Disk.entry_congr touches.current samePassable same]
    · constructor
      · intro found
        have stands := (Disk.entry_eq_some found).2.2
        rw [touches.current, directory] at stands
        exact absurd stands (by simp)
      · intro found
        have stands := (Disk.entry_eq_some found).2.2
        rw [nothing] at stands
        exact absurd stands (by simp)
  accounted other member sought := by
    have same := sameSeen other member
    obtain ⟨passes, accounted⟩ := kept.accounted other member sought
    obtain ⟨unwritten, notGone, unreached, logKept⟩ := sources other member sought passes
    rw [← kept.current] at unwritten notGone unreached logKept
    unfold Accounted
    rw [sameProject, isRecorded_congr same]
    refine ⟨passes, ?_⟩
    rcases accounted with ofProject | ⟨recorded, there⟩ | ⟨logged, missing⟩
    · exact Or.inl ofProject
    · exact Or.inr (Or.inl ⟨recorded, touches.exists?_stays notGone there⟩)
    · refine Or.inr (Or.inr ⟨touches.exists?_stays logKept logged, ?_⟩)
      have placeable := placeable_of_checkPlace passes
      rw [exists?_pulledPlace placeable kept.passable, Option.isSome_eq_false_iff,
        Option.isNone_iff_eq_none] at missing
      rw [exists?_pulledPlace placeable (touches.passable kept.passable), touches.current,
        touches.none_stays unwritten notGone unreached missing]
      rfl

/-- Fetching from a store with files of its own keeps the invariant. -/
theorem fetch {asked text : String} (kept : Kept settings own start seen before)
    (store : remote.KeepsTo own) (apart : StoreApart settings start.disk.current own)
    (ran : (Step.fetch remote asked).Yields before text after) :
    Kept settings own start seen after := by
  obtain ⟨disk, fetched, result⟩ := Step.yields_fetch.1 ran
  obtain ⟨sound, current, outside⟩ := store asked before.disk kept.sound
  rw [fetched] at sound current outside
  simp only at sound current outside
  rw [← kept.current] at apart
  have samePassable : ∀ path : Path, (∀ passed ∈ path.left before.disk.current, ¬own passed) →
      (disk.Passable path ↔ before.disk.Passable path) := fun path free =>
    Disk.passable_congr current fun passed member => outside passed (free passed member)
  have target : ∀ passed ∈ settings.target.left before.disk.current, ¬own passed :=
    fun passed member owned => (apart passed owned).1 member
  rw [result]
  refine ⟨sound, current.trans kept.current, kept.path, ?_, ?_, kept.optimized, kept.ofProject, ?_⟩
  · exact (samePassable _ target).2 kept.passable
  · intro document aloof content
    rw [← kept.documents document aloof content]
    have free := aloof.store
    have left := aloof.left
    rw [← kept.current] at free left
    have unowned : ∀ passed ∈ document.left before.disk.current, ¬own passed :=
      fun passed member => (left passed member).elim (target passed) Untouched.store
    rw [Disk.entry_congr current (samePassable document unowned) (outside _ free)]
  · intro other member sought
    obtain ⟨passes, accounted⟩ := kept.accounted other member sought
    refine ⟨passes, ?_⟩
    have placeable := placeable_of_checkPlace passes
    have samePulled : disk.exists? (pulledPlace settings.target other) =
        before.disk.exists? (pulledPlace settings.target other) := by
      refine Disk.exists?_congr (Disk.entry_congr current ?_ ?_)
      · refine samePassable _ fun passed among => target passed ?_
        rw [left_pulledPlace settings _ placeable] at among
        exact among
      · refine outside _ fun owned => (apart _ owned).2.2.1 ?_
        rw [goal_pulledPlace settings _ placeable]
        exact List.prefix_append _ _
    have sameLog : disk.exists? (logPlace settings.protocols other) =
        before.disk.exists? (logPlace settings.protocols other) := by
      refine Disk.exists?_congr (Disk.entry_congr current ?_ ?_)
      · refine samePassable _ fun passed among owned => (apart _ owned).2.1 ?_
        rw [left_logPlace settings _ placeable] at among
        exact among
      · refine outside _ fun owned => (apart _ owned).2.2.2 ?_
        rw [goal_logPlace settings _ placeable]
        exact List.prefix_append _ _
    unfold Accounted
    rw [samePulled, sameLog]
    exact accounted

/-- Writing the source and the log of another name keeps the invariant. -/
theorem write {path : Path} {text : String} (kept : Kept settings own start seen before)
    (untouched : ∀ passed, Untouched settings own start.disk.current passed →
      passed ∉ path.way start.disk.current)
    (documents : ∀ document, Aloof settings own start.disk.current document →
      document.goal start.disk.current ≠ path.goal start.disk.current)
    (sources : ∀ other ∈ seen, isLocal start.foreign other = false → checkPlace other = .ok () →
      (pulledPlace settings.target other).goal start.disk.current ∉ path.way start.disk.current)
    (ran : (Step.write path text).Yields before () after) : Kept settings own start seen after := by
  obtain ⟨disk, written, result⟩ := Step.yields_write.1 ran
  obtain ⟨ends, _, touches, _⟩ := Document.writeBelow_ok kept.sound written
  rw [kept.current] at touches
  have goalOnWay := Path.goal_mem_way ends start.disk.current
  rw [result]
  refine kept.touch touches rfl (fun _ => rfl) (fun _ => rfl) (fun _ _ => rfl) ?_ ?_ ?_
  · intro passed clear
    have free := untouched passed clear
    refine ⟨fun here => free ?_, by simp, free⟩
    rw [List.mem_singleton.1 here]
    exact goalOnWay
  · intro document aloof
    exact ⟨by simpa using documents document aloof, by simp⟩
  · intro other member sought passes
    have free := sources other member sought passes
    refine ⟨fun here => free ?_, by simp, free, by simp⟩
    rw [List.mem_singleton.1 here]
    exact goalOnWay

/-- Recording the source of a name touches the catalog file and its sibling. -/
theorem touches_update {change : Record → Record} {record : Record}
    (kept : Kept settings own start seen before)
    (ran : (Step.updateForeign name change).Yields before record after) :
    Touches [(catalogPath settings.target).goal start.disk.current,
        (siblingPath settings.target).goal start.disk.current]
      [(siblingPath settings.target).goal start.disk.current]
      ((catalogPath settings.target).way start.disk.current) before.disk after.disk := by
  obtain ⟨catalog, disk, updated, result⟩ := Step.yields_updateForeign.1 ran
  obtain ⟨_, _, _, _, sameCatalog, persisted⟩ := Catalog.update_ok updated
  rw [result]
  rcases persisted with same | persisted
  · rw [same]
    exact .refl kept.sound
  · have ends := Catalog.persist_endsInName persisted
    have reached := (Catalog.persist_ok kept.sound persisted).2.mono (fun _ => id) (fun _ => id)
      (ends.way_of_enclosing _)
    unfold Catalog.sibling at reached
    rw [sameCatalog, Catalog.path_put, kept.path, kept.current] at reached
    exact reached

/-- Recording the source of another name keeps the invariant. -/
theorem update {source : Path} {version hash : Option String} {record : Record}
    (kept : Kept settings own start seen before) (written : settings.target.IsText)
    (unseen : name ∉ seen) (passes : checkPlace name = .ok ())
    (sought : isLocal before.foreign name = false)
    (apart : ∀ other ∈ seen, isLocal start.foreign other = false → checkPlace other = .ok () →
      Apart settings start.disk.current other name)
    (ran : (Step.updateForeign name (asPulled source version hash)).Yields before record after) :
    Kept settings own start seen after := by
  obtain ⟨old, found, changed, sameId, sameCatalog⟩ := updateForeign_catalog ran
  have others : ∀ id, id ≠ name → after.foreign.find? id = before.foreign.find? id := by
    intro id different
    rw [sameCatalog]
    exact Catalog.find?_put_other _ fun same => different (by rw [← same, sameId])
  have targetWay : ∀ reached ∈ settings.target.way start.disk.current,
      reached ∈ (pulledPlace settings.target name).way start.disk.current := fun reached =>
    way_target_pulledPlace settings start.disk.current (placeable_of_checkPlace passes)
  refine kept.touch (kept.touches_update ran) (by rw [sameCatalog, Catalog.path_put]) ?_ ?_ ?_
    ?_ ?_ ?_
  · intro id
    by_cases same : id = name
    · rw [same, updateForeign_find? ran, found, changed]
      rfl
    · rw [others id same]
  · intro other
    by_cases same : other = name
    · rw [same, sought]
      unfold isLocal
      rw [updateForeign_find? ran, changed]
      simp [asPulled]
    · unfold isLocal
      rw [others other same]
  · intro other member
    exact others other fun same => unseen (same ▸ member)
  · intro passed clear
    refine ⟨by simpa using ⟨clear.catalog, clear.sibling⟩, by simpa using clear.sibling, ?_⟩
    rw [mem_way_catalogPath, ← goal_catalogPath]
    exact fun reached => reached.elim (fun inTarget => clear.source name passes
      (targetWay passed inTarget)) clear.catalog
  · intro document aloof
    exact ⟨by simpa using ⟨aloof.catalog, aloof.sibling⟩, by simpa using aloof.sibling⟩
  · intro other member otherSought otherPasses
    have files := apart other member otherSought otherPasses
    have placeable := placeable_of_checkPlace otherPasses
    have catalogFile : Catalogs.foreignFile ≠ pulledDirectory := by decide
    have siblingFile : Catalogs.foreignFile ++ ".tmp" ≠ pulledDirectory := by decide
    have notCatalog := goal_pulledPlace_ne settings start.disk.current placeable catalogFile
    have notSibling := goal_pulledPlace_ne settings start.disk.current placeable siblingFile
    rw [← goal_catalogPath] at notCatalog
    rw [← goal_siblingPath written] at notSibling
    refine ⟨by simpa using ⟨notCatalog, notSibling⟩, by simpa using notSibling, ?_,
      by simpa using files.sibling⟩
    rw [mem_way_catalogPath, ← goal_catalogPath]
    exact fun reached => reached.elim (fun inTarget => files.source (targetWay _ inTarget))
      notCatalog

/-- Seeing to one more name undoes nothing for the others. -/
theorem lastPull (kept : Kept settings own start seen before)
    (written : settings.target.IsText) (store : remote.KeepsTo own)
    (storeApart : StoreApart settings start.disk.current own) (unseen : name ∉ seen)
    (passes : checkPlace name = .ok ()) (sought : isLocal before.foreign name = false)
    (apart : ∀ other ∈ seen, isLocal start.foreign other = false → checkPlace other = .ok () →
      Apart settings start.disk.current other name)
    (pull : LastPull settings remote name before after) :
    Kept settings own start seen after ∧ Accounted settings after name := by
  have placeable := placeable_of_checkPlace passes
  have recordedAt : ∀ {middle last : Workspace} {record : Record} {hash : Option String},
      Kept settings own start seen middle → isLocal middle.foreign name = false →
      middle.disk.exists? (pulledPlace settings.target name) = true →
      (Step.updateForeign name (asPulled (pulledPlace settings.target name)
        (ObjectName.split name).2 hash)).Yields middle record last →
      Kept settings own start seen last ∧ Accounted settings last name := by
    intro middle last record hash keptMiddle soughtMiddle there ran
    refine ⟨keptMiddle.update written unseen passes soughtMiddle apart ran,
      Or.inr (Or.inl ⟨?_, ?_⟩)⟩
    · obtain ⟨old, _, changed, _⟩ := updateForeign_catalog ran
      exact isRecorded_of_pulled (updateForeign_find? ran) (by rw [changed]; rfl)
        (by rw [changed]; rfl)
    · refine (keptMiddle.touches_update ran).exists?_stays ?_ there
      rw [keptMiddle.current, goal_siblingPath written, List.mem_singleton]
      exact goal_pulledPlace_ne settings _ placeable (by decide)
  cases pull with
  | left logged missing => exact ⟨kept, Or.inr (Or.inr ⟨logged, missing⟩)⟩
  | kept there recorded => exact ⟨kept, Or.inr (Or.inl ⟨recorded, there⟩)⟩
  | recorded there ran => exact recordedAt kept sought there ran
  | fetched ranFetch ran =>
    obtain ⟨_, fetched, middle, asked, wroteSource, wroteLog⟩ := yields_fetchSource.1 ranFetch
    have keptFetched := kept.fetch store storeApart asked
    have keptMiddle := keptFetched.write (fun _ clear => clear.source name passes)
      (fun _ aloof => aloof.source name passes)
      (fun other inSeen otherSought otherPasses =>
        (apart other inSeen otherSought otherPasses).source) wroteSource
    have keptLast := keptMiddle.write (fun _ clear => clear.log name passes)
      (fun _ aloof => aloof.log name passes)
      (fun other inSeen otherSought otherPasses =>
        (apart other inSeen otherSought otherPasses).log) wroteLog
    refine recordedAt keptLast ((keptLast.ofProject name).trans ?_) ?_ ran
    · rw [← kept.ofProject name]
      exact sought
    obtain ⟨disk, wrote, result⟩ := Step.yields_write.1 wroteSource
    obtain ⟨ends, passable, _, stands⟩ := Document.writeBelow_ok keptFetched.sound wrote
    obtain ⟨later, wroteLater, resultLater⟩ := Step.yields_write.1 wroteLog
    have touches := (Document.writeBelow_ok keptMiddle.sound wroteLater).2.2.1
    rw [resultLater]
    refine touches.exists?_stays (by simp) ?_
    have sameCurrent := keptMiddle.current.trans keptFetched.current.symm
    rw [result] at sameCurrent ⊢
    simp only at sameCurrent
    rw [← sameCurrent] at stands
    exact Disk.exists?_iff.2 ⟨_, (Disk.entry_of_name ends passable).trans stands⟩

theorem extend (kept : Kept settings own start seen before)
    (new : isLocal start.foreign name = false →
      checkPlace name = .ok () ∧ Accounted settings before name) :
    Kept settings own start (seen ++ [name]) before where
  sound := kept.sound
  current := kept.current
  path := kept.path
  passable := kept.passable
  documents := kept.documents
  optimized := kept.optimized
  ofProject := kept.ofProject
  accounted other member sought := by
    rcases List.mem_append.1 member with old | here
    · exact kept.accounted other old sought
    · rw [List.mem_singleton.1 here] at sought ⊢
      exact new sought

end Kept

/-! ## All names in the last pull -/

theorem pinned_frame {known : Option HashTable} {result : Option String × Option HashTable}
    (ran : (pinned remote known name).Yields before result after) :
    ∃ slot journal, after = { before with slot := slot, journal := journal } ∧
      (journal = before.journal ∨ journal = before.journal ++ [.table]) := by
  rcases yields_pinned.1 ran with ⟨_, _, rfl⟩ | ⟨_, _, _, _, ranTable, _⟩
  · exact ⟨_, _, rfl, Or.inl rfl⟩
  · rcases yields_tableFor.1 ranTable with ⟨_, rfl⟩ | ⟨_, loads⟩
    · exact ⟨_, _, rfl, Or.inl rfl⟩
    · exact Step.table_frame loads

theorem pullName_settled {known : Option HashTable} {result : Nat × Option HashTable}
    (sorted : before.foreign.Sorted) (grown : last.Grows before.foreign)
    (back : after.foreign.Grows last)
    (ran : (pullName settings remote known name).Yields before result after) :
    (isLocal before.foreign name = true ∧ after = before) ∨
    (isLocal before.foreign name = false ∧ checkPlace name = .ok () ∧ ∃ slot journal,
      LastPull settings remote name { before with slot := slot, journal := journal } after) := by
  rcases yields_pullName.1 ran with ⟨ofProject, _, same⟩ | ⟨sought, passes, _, ready, ranPinned,
    ranPull⟩
  · exact Or.inl ⟨ofProject, same.symm⟩
  · obtain ⟨slot, journal, result, _⟩ := pinned_frame ranPinned
    rw [result] at ranPull
    exact Or.inr ⟨sought, passes, slot, journal, pullPinned_settled sorted grown back ranPull⟩

/-- The last pull sees to name after name. -/
theorem Kept.pullEach {own : Location → Prop} {start : Workspace} {known : Option HashTable}
    {names : List String} {count : Nat} (written : settings.target.IsText)
    (store : remote.KeepsTo own) (storeApart : StoreApart settings start.disk.current own)
    (sorted : before.foreign.Sorted) (grown : last.Grows before.foreign)
    (back : after.foreign.Grows last)
    (ran : (Build.pullEach settings remote known names).Yields before count after) :
    (Kept settings own start [] before → Kept settings own start [] after) ∧
    ∀ seen, (seen ++ names).Nodup →
      NamesApart settings start.disk.current
        ((seen ++ names).filter fun name => !isLocal start.foreign name) →
      Kept settings own start seen before → Kept settings own start (seen ++ names) after := by
  induction names generalizing before known count with
  | nil =>
    rw [(Step.yields_pure.1 ran).2]
    exact ⟨fun kept => kept, fun seen _ _ kept => by rwa [List.append_nil]⟩
  | cons name rest inductionHypothesis =>
    obtain ⟨_, table, between, _, ranName, ranRest, _⟩ := yields_pullEach_cons.1 ran
    have growing := fun start : Catalog => (growsFrom_invariant remote start).supply settings
    have atBetween := (growing before.foreign).pullName known name before _ between
      ⟨sorted, .refl _⟩ ranName
    have grownBetween := grown.trans atBetween.2
    have atEnd := (growing between.foreign).pullEach table rest between _ _
      ⟨atBetween.1, .refl _⟩ ranRest
    have seesTo := pullName_settled sorted grown (atEnd.2.trans back) ranName
    obtain ⟨frame, others⟩ := inductionHypothesis atBetween.1 grownBetween ranRest
    have one : ∀ seen, name ∉ seen → (∀ other ∈ seen, isLocal start.foreign other = false →
        checkPlace other = .ok () → isLocal start.foreign name = false →
        checkPlace name = .ok () → Apart settings start.disk.current other name) →
        Kept settings own start seen before →
        Kept settings own start seen between ∧ (isLocal start.foreign name = false →
          checkPlace name = .ok () ∧ Accounted settings between name) := by
      intro seen unseen apart kept
      rcases seesTo with ⟨ofProject, same⟩ | ⟨sought, passes, slot, journal, pull⟩
      · rw [same]
        refine ⟨kept, fun sought => ?_⟩
        rw [← kept.ofProject name, ofProject] at sought
        exact absurd sought (by simp)
      · have ready : Kept settings own start seen
            { before with slot := slot, journal := journal } :=
          ⟨kept.sound, kept.current, kept.path, kept.passable, kept.documents, kept.optimized,
            kept.ofProject, kept.accounted⟩
        have soughtAtStart := (kept.ofProject name).symm.trans sought
        obtain ⟨keptBetween, accounted⟩ := ready.lastPull written store storeApart unseen passes
          sought (fun other inSeen otherSought otherPasses =>
            apart other inSeen otherSought otherPasses soughtAtStart passes) pull
        exact ⟨keptBetween, fun _ => ⟨passes, accounted⟩⟩
    constructor
    · intro kept
      exact frame (one [] (by simp) (by simp) kept).1
    · intro seen distinct apart kept
      have unseen : name ∉ seen := by
        intro member
        exact (List.nodup_append.1 distinct).2.2 name member name List.mem_cons_self rfl
      obtain ⟨keptBetween, new⟩ := one seen unseen (fun other inSeen otherSought otherPasses
          sought passes =>
        apart other (List.mem_filter.2 ⟨List.mem_append_left _ inSeen, by simp [otherSought]⟩) name
          (List.mem_filter.2 ⟨List.mem_append_right _ List.mem_cons_self, by simp [sought]⟩)
          (fun same => unseen (same ▸ inSeen)) otherPasses passes) kept
      rw [List.append_cons] at distinct apart ⊢
      exact others _ distinct apart (keptBetween.extend new)

end Build

end EoAssembly
