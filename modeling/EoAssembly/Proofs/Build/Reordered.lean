import EoAssembly.Proofs.Build.Attempted

/-!
Contract: documents may be optimized in any order.

In an orderly project no place is inside another, and the documents and the catalog file are
outside of the directories of results.  An attempt at one document then neither changes which
files are due for another nor touches them, so that two attempts may change places.  What all
attempts in one order leave, all attempts in any other order leave.

Owns `Orderly`, and what attempts at documents leave of each other.
-/

namespace EoAssembly.Build

open Disk (Touches)
open Document (writeAll)
open ObjectName (Lettered segments)
open Path (Component)

variable {target path : Path} {id twin : String} {item other : String × Path} {catalog : Catalog}
  {disk next : Disk} {before between after start : Workspace} {done : List (String × Path)}
  {order : List (String × Path)}

/-! ## Orderly projects -/

/-- A location neither in the directory of the results of passes nor in that of optimized
documents. -/
def Outside (target : Path) (current location : Location) : Prop :=
  ¬(target.child stepsDirectory).goal current <+: location ∧
    ¬(target.child optimizedDirectory).goal current <+: location

/-- An object in a catalog. -/
def Lists (catalog : Catalog) (id : String) : Prop := ∃ record ∈ catalog.records, record.id = id

/-- A catalog and a disk on which documents can be optimized one beside the other: the places of
its objects are none inside another, and the documents that wait and the catalog file are outside
of the directories of results.  The paths to the target and to these documents can be followed. -/
structure Orderly (target : Path) (catalog : Catalog) (disk : Disk) : Prop where
  sound : disk.Sound
  sorted : catalog.Sorted
  passable : disk.Passable target
  lettered : ∀ id, Lists catalog id → Lettered id
  clear : ∀ id twin, Lists catalog id → Lists catalog twin → id ≠ twin → PlacesClear target id twin
  documents : ∀ item ∈ unoptimized catalog,
    disk.Passable item.2 ∧ Outside target disk.current (item.2.goal disk.current)
  isText : catalog.path.IsText
  file : Outside target disk.current (catalog.path.goal disk.current)
  sibling : Outside target disk.current (catalog.sibling.goal disk.current)

theorem mem_unoptimized : item ∈ unoptimized catalog ↔
    ∃ record ∈ catalog.records, record.optimized = none ∧ record.xmir = some item.2 ∧
      record.id = item.1 := by
  unfold unoptimized
  rw [List.mem_filterMap]
  apply exists_congr
  intro record
  apply and_congr_right
  intro _
  unfold awaitsOptimize
  obtain ⟨id, xmir⟩ := item
  cases record.optimized with
  | some place => simp
  | none =>
    cases record.xmir with
    | none => simp
    | some document => simp [and_comm]

theorem lists_of_unoptimized (waits : item ∈ unoptimized catalog) : Lists catalog item.1 := by
  obtain ⟨record, member, _, _, same⟩ := mem_unoptimized.1 waits
  exact ⟨record, member, same⟩

theorem not_outside (lettered : Lettered id) (isFile : path ∈ filePaths target id)
    (current : Location) : ¬Outside target current (path.goal current) := by
  obtain ⟨_, names, areNames, behind⟩ := components_filePath lettered isFile
  have goal := Path.goal_of_names current behind
  have directory : ∀ {name : String}, Path.IsName name → ∀ rest : List String,
      (target.child name).goal current <+: target.goal current ++ name :: rest := by
    intro name plain rest
    have child : (target.child name).components =
        target.components ++ [name].map Component.named := Path.components_child target plain
    rw [Path.goal_of_names current child,
      List.prefix_append_right_inj]
    exact ⟨rest, rfl⟩
  rintro ⟨steps, optimized⟩
  rw [goal] at steps optimized
  cases areNames with
  | step isPass => exact steps (directory isName_steps _)
  | optimized => exact optimized (directory isName_optimized _)

namespace Orderly

variable (orderly : Orderly target catalog disk)
include orderly

/-- A project stays orderly whatever is written and made. -/
theorem later {written gone made : List Location} (touches : Touches written gone made disk next) :
    Orderly target catalog next where
  sound := touches.sound
  sorted := orderly.sorted
  passable := touches.passable orderly.passable
  lettered := orderly.lettered
  clear := orderly.clear
  documents item waits := by
    obtain ⟨passable, outside⟩ := orderly.documents item waits
    rw [touches.current]
    exact ⟨touches.passable passable, outside⟩
  isText := orderly.isText
  file := by
    rw [touches.current]
    exact orderly.file
  sibling := by
    rw [touches.current]
    exact orderly.sibling

theorem alike (same : disk.Alike next) : Orderly target catalog next where
  sound := same.sound orderly.sound
  sorted := orderly.sorted
  passable := (same.sameDirectories.passable target).2 orderly.passable
  lettered := orderly.lettered
  clear := orderly.clear
  documents item waits := by
    obtain ⟨passable, outside⟩ := orderly.documents item waits
    rw [same.current]
    exact ⟨(same.sameDirectories.passable item.2).2 passable, outside⟩
  isText := orderly.isText
  file := by
    rw [same.current]
    exact orderly.file
  sibling := by
    rw [same.current]
    exact orderly.sibling

theorem passable_file (lists : Lists catalog id) (isFile : path ∈ filePaths target id) :
    disk.Passable path :=
  passable_filePath (orderly.lettered id lists) isFile orderly.passable

/-- What is outside of the directories of results is no file of a result. -/
theorem elsewhere {location : Location} (outside : Outside target disk.current location)
    (lists : Lists catalog id) : location ∉ (filePaths target id).map (Path.goal disk.current) := by
  intro member
  obtain ⟨path, isFile, same⟩ := List.mem_map.1 member
  rw [← same] at outside
  exact not_outside (orderly.lettered id lists) isFile disk.current outside

end Orderly

/-! ## Attempts beside each other -/

section Beside

variable (orderly : Orderly target catalog before.disk) (lists : Lists catalog id)
  (listsTwin : Lists catalog twin) (different : id ≠ twin)
  (alters : AltersFiles (filePaths target twin) (filePaths target twin) before after)

include orderly lists listsTwin different alters

/-- An attempt at one document leaves the files of another as they are. -/
theorem spared (isFile : path ∈ filePaths target id) :
    after.disk.entryAt? (path.goal before.disk.current) =
      before.disk.entryAt? (path.goal before.disk.current) := by
  have lettered := orderly.lettered id lists
  have letteredTwin := orderly.lettered twin listsTwin
  have clear := orderly.clear id twin lists listsTwin different
  have unwritten : path.goal before.disk.current ∉
      (filePaths target twin).map (Path.goal before.disk.current) := by
    intro member
    obtain ⟨file, isOther, same⟩ := List.mem_map.1 member
    apply goal_filePath_apart lettered letteredTwin clear isFile isOther before.disk.current
    exact same ▸ List.prefix_rfl
  apply (alters.touches.others _ unwritten (by simp)).resolve_right
  rintro ⟨made, nothing, _⟩
  obtain ⟨file, isOther, above⟩ := List.mem_flatMap.1 made
  apply not_above orderly.sound (orderly.passable_file listsTwin isOther)
    (goal_filePath_apart lettered letteredTwin clear isFile isOther _)
    (Disk.directoryAt_of_none nothing) above

theorem exists?_spared :
    after.disk.exists? (optimizedPlace target id) =
      before.disk.exists? (optimizedPlace target id) := by
  have isPlace : optimizedPlace target id ∈ filePaths target id := by simp [filePaths]
  have passable := orderly.passable_file lists isPlace
  apply Disk.exists?_congr
  apply Disk.entry_congr alters.touches.current
  · exact iff_of_true (alters.touches.passable passable) passable
  · exact spared orderly lists listsTwin different alters isPlace

end Beside

/-- A document that is not written is read behind changes exactly when it is read before. -/
theorem load_later {written made : List Location} {document : Document}
    (touches : Touches written [] made disk next) (unwritten : path.goal disk.current ∉ written)
    (passable : disk.Passable path) :
    Document.load next path = .ok document ↔ Document.load disk path = .ok document := by
  have files : ∀ text, next.entry? path = some (.file (.text text)) ↔
      disk.entry? path = some (.file (.text text)) := by
    intro text
    constructor
    · intro found
      have stands := (Disk.entry_eq_some found).2.2
      rw [touches.current] at stands
      rw [← found]
      apply (Disk.entry_congr touches.current _ _).symm
      · exact iff_of_true (touches.passable passable) passable
      · rw [stands, touches.file_before unwritten (by simp) stands]
    · exact fun found => touches.entry?_stays unwritten (by simp) found
  simp only [Document.load_eq_ok, files]

/-- What is due for one document does not depend on an attempt at another. -/
theorem filesDue_later {files : List (Path × String)} (orderly : Orderly target catalog before.disk)
    (waits : item ∈ unoptimized catalog) (listsTwin : Lists catalog twin)
    (different : item.1 ≠ twin)
    (alters : AltersFiles (filePaths target twin) (filePaths target twin) before after) :
    filesDue target after.disk item = .ok files ↔ filesDue target before.disk item = .ok files := by
  obtain ⟨passable, outside⟩ := orderly.documents item waits
  have unwritten := orderly.elsewhere outside listsTwin
  rw [filesDue_eq_ok, filesDue_eq_ok,
    exists?_spared orderly (lists_of_unoptimized waits) listsTwin different alters]
  simp only [load_later alters.touches unwritten passable]

/-! ## Attempts that succeed -/

/-- An attempt succeeds on every disk with the same entries that forces no failure. -/
theorem optimizeDocument_alike {answer : Path}
    (ran : (optimizeDocument target item.1 item.2).Yields before answer after)
    (alike : before.disk.Alike start.disk) (calm : start.disk.Calm) :
    ∃ last, (optimizeDocument target item.1 item.2).Yields start answer last ∧
      after.disk.Alike last.disk ∧ last.disk.Calm := by
  obtain ⟨isPlace, files, disk, due, wrote, rfl⟩ := optimizeDocument_yields.1 ran
  obtain ⟨last, wroteThere, alikeLast, calmLast⟩ := Document.writeAll_alike alike calm wrote
  have dueThere : filesDue target start.disk item = .ok files := by
    rw [← due]
    unfold filesDue
    rw [alike.exists?, Document.load_congr (alike.entry? item.2)]
  exact ⟨{ start with disk := last },
    optimizeDocument_yields.2 ⟨isPlace, files, last, dueThere, wroteThere, rfl⟩, alikeLast,
    calmLast⟩

theorem writeAll_noDirectory {files : List (Path × String)} (sound : disk.Sound)
    (ran : writeAll disk files = (.ok (), next)) :
    ∀ file ∈ files, disk.directoryAt (file.1.goal disk.current) = false := by
  induction files generalizing disk with
  | nil => simp
  | cons file rest inductionHypothesis =>
    obtain ⟨path, text⟩ := file
    obtain ⟨between, wrote, ranRest⟩ := Document.writeAll_cons.1 ran
    obtain ⟨_, _, touches, _⟩ := Document.writeBelow_ok sound wrote
    rw [List.forall_mem_cons]
    refine ⟨(Document.receives_of_writeBelow sound wrote).goal, fun other member => ?_⟩
    have later := inductionHypothesis touches.sound ranRest other member
    rw [touches.current] at later
    rw [Bool.eq_false_iff]
    intro directory
    rw [touches.directories _ directory] at later
    exact absurd later (by simp)

/-- Attempts at two documents may change places. -/
theorem optimizeDocument_swap {answer answerOther : Path}
    (orderly : Orderly target catalog before.disk) (calm : before.disk.Calm)
    (waits : item ∈ unoptimized catalog) (waitsOther : other ∈ unoptimized catalog)
    (different : item.1 ≠ other.1)
    (ran : (optimizeDocument target item.1 item.2).Yields before answer between)
    (ranOther : (optimizeDocument target other.1 other.2).Yields between answerOther after) :
    ∃ early late, (optimizeDocument target other.1 other.2).Yields before answerOther early ∧
      (optimizeDocument target item.1 item.2).Yields early answer late ∧
        after.disk.Alike late.disk ∧ late.disk.Calm := by
  have lists := lists_of_unoptimized waits
  have listsOther := lists_of_unoptimized waitsOther
  have lettered := orderly.lettered _ lists
  have letteredOther := orderly.lettered _ listsOther
  have alters := (optimizeDocument_alters lettered orderly.sound ran).1
  obtain ⟨isPlace, files, disk, due, wrote, isBetween⟩ := optimizeDocument_yields.1 ran
  obtain ⟨isOther, others, final, dueOther, wroteOther, rfl⟩ := optimizeDocument_yields.1 ranOther
  have dueEarly : filesDue target before.disk other = .ok others :=
    (filesDue_later orderly waitsOther lists different.symm alters).1 dueOther
  rw [isBetween] at wroteOther
  have noDirectory := writeAll_noDirectory orderly.sound wrote
  have noDirectoryOther : ∀ file ∈ others,
      before.disk.directoryAt (file.1.goal before.disk.current) = false := by
    obtain ⟨sound, current⟩ := Document.writeAll_sound orderly.sound wrote
    intro file member
    have later := writeAll_noDirectory sound wroteOther file member
    rw [current] at later
    have touches := alters.touches
    rw [isBetween] at touches
    rw [Bool.eq_false_iff]
    intro directory
    rw [touches.directories _ directory] at later
    exact absurd later (by simp)
  have apart : ∀ file ∈ files, ∀ twin ∈ others,
      Document.Apart before.disk.current file.1 twin.1 := by
    intro file member twin among
    have isFile := filesDue_paths due file member
    have isTwin := filesDue_paths dueEarly twin among
    have clear := goal_filePath_apart lettered letteredOther
      (orderly.clear _ _ lists listsOther different) isFile isTwin before.disk.current
    have clearBack := goal_filePath_apart letteredOther lettered
      (orderly.clear _ _ listsOther lists different.symm) isTwin isFile before.disk.current
    refine ⟨fun same => clear (same ▸ List.prefix_rfl), ?_, ?_⟩
    · exact not_above orderly.sound (orderly.passable_file listsOther isTwin) clear
        (noDirectory file member)
    · exact not_above orderly.sound (orderly.passable_file lists isFile) clearBack
        (noDirectoryOther twin among)
  obtain ⟨early, late, wroteEarly, wroteLate, alike, calmLate⟩ :=
    Document.writeAll_swap orderly.sound calm apart wrote wroteOther
  have ranEarly : (optimizeDocument target other.1 other.2).Yields before answerOther
      { before with disk := early } :=
    optimizeDocument_yields.2 ⟨isOther, others, early, dueEarly, wroteEarly, rfl⟩
  have altersEarly := (optimizeDocument_alters letteredOther orderly.sound ranEarly).1
  have dueLate := (filesDue_later orderly waits listsOther different altersEarly).2 due
  exact ⟨_, { before with disk := late }, ranEarly,
    optimizeDocument_yields.2 ⟨isPlace, files, late, dueLate, wroteLate, rfl⟩, alike, calmLate⟩

/-! ## All documents -/

/-- Documents with the places of their optimized forms. -/
def placed (target : Path) (items : List (String × Path)) : List (String × Path) :=
  items.map fun item => (item.1, optimizedPlace target item.1)

theorem optimizeEach_cons : (optimizeEach target (item :: order)).Yields before done after ↔
    ∃ between others, (optimizeDocument target item.1 item.2).Yields before
      (optimizedPlace target item.1) between ∧
        (optimizeEach target order).Yields between others after ∧
          done = (item.1, optimizedPlace target item.1) :: others := by
  obtain ⟨id, xmir⟩ := item
  rw [yields_optimizeEach_cons]
  constructor
  · rintro ⟨place, between, others, ran, ranRest, rfl⟩
    have isPlace := (optimizeDocument_yields.1 ran).1
    rw [isPlace] at ran
    exact ⟨between, others, ran, ranRest, by rw [isPlace]⟩
  · rintro ⟨between, others, ran, ranRest, rfl⟩
    exact ⟨_, between, others, ran, ranRest, rfl⟩

/-- Attempts change the disk only, and answer the places of the optimized forms. -/
theorem optimizeEach_frame (ran : (optimizeEach target order).Yields before done after) :
    done = placed target order ∧ after = { before with disk := after.disk } := by
  induction order generalizing before done with
  | nil =>
    obtain ⟨rfl, rfl⟩ := Step.yields_pure.1 ran
    exact ⟨rfl, rfl⟩
  | cons item rest inductionHypothesis =>
    obtain ⟨between, others, ranFirst, ranRest, rfl⟩ := optimizeEach_cons.1 ran
    obtain ⟨rfl, isAfter⟩ := inductionHypothesis ranRest
    obtain ⟨_, _, disk, _, _, rfl⟩ := optimizeDocument_yields.1 ranFirst
    exact ⟨rfl, isAfter⟩

/-- What succeeds for all documents succeeds for the first of them. -/
theorem optimizeEach_front {left : List (String × Path)}
    (ran : (optimizeEach target (order ++ left)).Yields before done after) :
    ∃ between, (optimizeEach target order).Yields before (placed target order) between := by
  induction order generalizing before done with
  | nil => exact ⟨before, Step.yields_pure.2 ⟨rfl, rfl⟩⟩
  | cons item rest inductionHypothesis =>
    obtain ⟨middle, others, ranFirst, ranRest, _⟩ := optimizeEach_cons.1 ran
    obtain ⟨between, ranFront⟩ := inductionHypothesis ranRest
    exact ⟨between, optimizeEach_cons.2 ⟨middle, _, ranFirst, ranFront, rfl⟩⟩

theorem optimizeEach_alike (ran : (optimizeEach target order).Yields before done after)
    (alike : before.disk.Alike start.disk) (calm : start.disk.Calm) :
    ∃ last, (optimizeEach target order).Yields start done last ∧ after.disk.Alike last.disk ∧
      last.disk.Calm := by
  induction order generalizing before start done with
  | nil =>
    obtain ⟨rfl, rfl⟩ := Step.yields_pure.1 ran
    exact ⟨start, Step.yields_pure.2 ⟨rfl, rfl⟩, alike, calm⟩
  | cons item rest inductionHypothesis =>
    obtain ⟨between, others, ranFirst, ranRest, rfl⟩ := optimizeEach_cons.1 ran
    obtain ⟨there, ranThere, alikeThere, calmThere⟩ := optimizeDocument_alike ranFirst alike calm
    obtain ⟨last, ranLast, alikeLast, calmLast⟩ := inductionHypothesis ranRest alikeThere calmThere
    exact ⟨last, optimizeEach_cons.2 ⟨there, others, ranThere, ranLast, rfl⟩, alikeLast, calmLast⟩

/-- What succeeds in one order succeeds in every order, and leaves the same entries. -/
theorem optimizeEach_perm {orderTwin : List (String × Path)} (perm : order.Perm orderTwin)
    (orderly : Orderly target catalog before.disk)
    (waits : ∀ item ∈ order, item ∈ unoptimized catalog)
    (distinct : (order.map Prod.fst).Nodup)
    (ran : (optimizeEach target order).Yields before done after)
    (alike : before.disk.Alike start.disk) (calm : start.disk.Calm) :
    ∃ last, (optimizeEach target orderTwin).Yields start (placed target orderTwin) last ∧
      after.disk.Alike last.disk ∧ last.disk.Calm := by
  induction perm generalizing before after start done with
  | nil =>
    obtain ⟨rfl, rfl⟩ := Step.yields_pure.1 ran
    exact ⟨start, Step.yields_pure.2 ⟨rfl, rfl⟩, alike, calm⟩
  | cons item perm inductionHypothesis =>
    obtain ⟨waitsFirst, waitsRest⟩ := List.forall_mem_cons.1 waits
    obtain ⟨between, others, ranFirst, ranRest, rfl⟩ := optimizeEach_cons.1 ran
    obtain ⟨there, ranThere, alikeThere, calmThere⟩ := optimizeDocument_alike ranFirst alike calm
    have lettered := orderly.lettered _ (lists_of_unoptimized waitsFirst)
    have alters := (optimizeDocument_alters lettered orderly.sound ranFirst).1
    obtain ⟨last, ranLast, alikeLast, calmLast⟩ := inductionHypothesis
      (orderly.later alters.touches) waitsRest (List.nodup_cons.1 distinct).2 ranRest alikeThere
      calmThere
    exact ⟨last, optimizeEach_cons.2 ⟨there, _, ranThere, ranLast, rfl⟩, alikeLast, calmLast⟩
  | swap item other rest =>
    -- The other one comes first here; on the disk that forces nothing they change places.
    obtain ⟨first, _, ranOther, ranBehind, rfl⟩ := optimizeEach_cons.1 ran
    obtain ⟨second, others, ranItem, ranRest, rfl⟩ := optimizeEach_cons.1 ranBehind
    obtain ⟨one, ranOne, alikeOne, calmOne⟩ := optimizeDocument_alike ranOther alike calm
    obtain ⟨two, ranTwo, alikeTwo, calmTwo⟩ := optimizeDocument_alike ranItem alikeOne calmOne
    have orderlyThere : Orderly target catalog start.disk := orderly.alike alike
    have different : other.1 ≠ item.1 := by
      rw [List.map_cons, List.map_cons, List.nodup_cons] at distinct
      exact fun same => distinct.1 (by simp [same])
    obtain ⟨early, late, ranEarly, ranLate, alikeLate, calmLate⟩ :=
      optimizeDocument_swap orderlyThere calm (waits other (by simp)) (waits item (by simp))
        different ranOne ranTwo
    obtain ⟨last, ranLast, alikeLast, calmLast⟩ :=
      optimizeEach_alike ranRest (alikeTwo.trans alikeLate) calmLate
    have isDone := (optimizeEach_frame ranRest).1
    rw [isDone] at ranLast
    exact ⟨last, optimizeEach_cons.2 ⟨early, _, ranEarly,
      optimizeEach_cons.2 ⟨late, _, ranLate, ranLast, rfl⟩, rfl⟩, alikeLast, calmLast⟩
  | trans perm permTwin inductionHypothesis inductionHypothesisTwin =>
    obtain ⟨between, ranBetween, alikeBetween, _⟩ :=
      inductionHypothesis orderly waits distinct ran alike calm
    have waitsThere : ∀ item ∈ _, item ∈ unoptimized catalog :=
      fun item member => waits item (perm.mem_iff.2 member)
    obtain ⟨last, ranLast, alikeLast, calmLast⟩ := inductionHypothesisTwin (orderly.alike alike)
      waitsThere ((perm.map Prod.fst).nodup_iff.1 distinct) ranBetween (.refl start.disk) calm
    exact ⟨last, ranLast, alikeBetween.trans alikeLast, calmLast⟩

end EoAssembly.Build
