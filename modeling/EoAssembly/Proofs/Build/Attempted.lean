import EoAssembly.Proofs.Build.Confined
import EoAssembly.Proofs.Build.Ground
import EoAssembly.Proofs.Build.Guarded
import EoAssembly.Proofs.Build.Spelling
import EoAssembly.Proofs.Disk.Commuting

/-!
Contract: which files the optimized form of one document takes.

The results of the passes and the optimized form of an object are behind names in the target.
The files of two objects are apart when neither place is inside the other: then no file of one is
above a file of the other, and the documents don't get in each other's way.  Which files are due
follows from the document alone, and writing them, one after the other, is all that is done.

Owns `ObjectName.Lettered`, `filePaths`, `filesDue`, and what an attempt at one document leaves.
-/

namespace EoAssembly

/-! ## Names of results -/

namespace ObjectName

variable {extension name left right : String} {text : List Char}

/-- A name that passes the check of places, with more than dots in its base. -/
structure Lettered (name : String) : Prop where
  passes : checkPlace name = .ok ()
  letter : ∃ c ∈ (split name).1.toList, c ≠ '.'

theorem spell_ne_nil {most dots : Nat} (letter : ∃ c ∈ text, c ≠ '.') :
    spell most dots text ≠ [] := by
  induction text generalizing dots with
  | nil => exact absurd letter (by simp)
  | cons first rest inductionHypothesis =>
    unfold spell
    split
    · next dot =>
      apply inductionHypothesis
      obtain ⟨c, member, notDot⟩ := letter
      rcases List.mem_cons.1 member with same | later
      · exact absurd (same.trans dot) notDot
      · exact ⟨c, later, notDot⟩
    · simp

theorem Lettered.parts (lettered : Lettered name) : partsOfName name ≠ [] := by
  rw [Ne, partsOfName_nil_iff]
  intro empty
  have chars := congrArg String.toList empty
  unfold spelling at chars
  rw [String.toList_ofList] at chars
  exact spell_ne_nil lettered.letter chars

theorem Lettered.placeable (lettered : Lettered name) : Placeable name :=
  placeable_of_checkPlace lettered.passes

/-- The names behind the directory of a place, the last of them without an extension. -/
def bareSegments (name : String) : List String := (split name).2.toList ++ partsOfName name

theorem segments_eq_fileBelow (lettered : Lettered name) (extension : String) :
    segments extension name = fileBelow extension (bareSegments name) := by
  rw [segments_eq]
  unfold bareSegments
  obtain ⟨first, rest, parts⟩ := List.exists_cons_of_ne_nil lettered.parts
  cases (split name).2 with
  | none => rfl
  | some tag =>
    rw [parts]
    rfl

theorem bareSegments_ne_nil (lettered : Lettered name) : bareSegments name ≠ [] :=
  List.append_ne_nil_of_right_ne_nil _ lettered.parts

theorem bareSegments_names (lettered : Lettered name) :
    ∀ segment ∈ bareSegments name, Path.IsName segment := by
  intro segment member
  rcases List.mem_append.1 member with version | part
  · exact lettered.placeable.version segment version
  · exact placeParts_names lettered.placeable.parts false segment part

/-- Letters of a part behind its first are no dots. -/
theorem Part.tail {part : String} (isPart : Part part) : '.' ∉ part.toList.tail := by
  obtain ⟨letters, some_, plain, same | dotted⟩ := isPart
  · rw [same]
    exact fun member => plain _ (List.mem_of_mem_tail member) rfl
  · rw [dotted]
    exact fun member => plain _ member rfl

/-- A name with a dot inside comes first among the names of a place, if at all. -/
theorem dotted_first {names : List String} {file : String} (dotted : '.' ∈ file.toList.tail)
    (some_ : names ≠ []) : ¬names ++ [file] <+: bareSegments name := by
  intro starts
  have notPart : file ∉ partsOfName name := fun member => (part_of_name file member).tail dotted
  obtain ⟨first, rest, split⟩ := List.exists_cons_of_ne_nil some_
  rw [split] at starts
  unfold bareSegments at starts
  cases version : (ObjectName.split name).2 with
  | none =>
    rw [version, Option.toList_none, List.nil_append] at starts
    exact notPart (starts.subset (by simp))
  | some tag =>
    rw [version] at starts
    exact notPart ((List.cons_prefix_cons.1 starts).2.subset (by simp))

end ObjectName

namespace Build

open Disk (Touches)
open Document (writeAll)
open ObjectName (Lettered bareSegments segments place)
open Path (Component IsName)

variable {target path other : Path} {id twin text : String} {names others : List String}
  {current : Location} {disk next : Disk} {before after : Workspace}

/-! ## Places of results -/

/-- The places of the results of single passes. -/
def stepPaths (target : Path) (id : String) : List Path :=
  Pass.all.zipIdx.map fun item => (stepsPlace target id).child (Pass.stepFile item.2 item.1)

/-- The places of all files that the optimized form of an object takes. -/
def filePaths (target : Path) (id : String) : List Path :=
  stepPaths target id ++ [optimizedPlace target id]

/-- The names of the file of a result behind the target. -/
inductive ResultNames (id : String) : List String → Prop
  | step {item : Pass × Nat} (isPass : item ∈ Pass.all.zipIdx) :
      ResultNames id (stepsDirectory :: (bareSegments id ++ [Pass.stepFile item.2 item.1]))
  | optimized : ResultNames id (optimizedDirectory :: segments documentExtension id)

theorem components_stepsPlace (lettered : Lettered id) (target : Path) :
    (stepsPlace target id).components =
      target.components ++ (stepsDirectory :: bareSegments id).map Component.named := by
  have directory := Path.endsInName_child target isName_steps
  obtain ⟨front, last, split⟩ :=
    (List.eq_nil_or_concat (bareSegments id)).resolve_left (ObjectName.bareSegments_ne_nil lettered)
  have areNames := ObjectName.bareSegments_names lettered
  rw [List.concat_eq_append] at split
  rw [split] at areNames
  have lastName := areNames last (by simp)
  have extended := ObjectName.isName_extended lastName isExtension_document.noSlash
  have whole : stepsPlace target id =
      ⟨(target.child stepsDirectory).base ++ bareSegments id⟩ := by
    unfold stepsPlace
    rw [ObjectName.place_segments isExtension_document.noSlash lettered.placeable directory,
      ObjectName.segments_eq_fileBelow lettered, split, ObjectName.fileBelow_concat,
      ← List.append_assoc, Path.withoutExtension_of_name extended.names,
      stem_extended lastName.names.ne_empty isExtension_document, List.append_assoc,
      directory.base_eq]
  rw [whole, Path.components_base_append _ (ObjectName.bareSegments_ne_nil lettered)
    (fun name member => (ObjectName.bareSegments_names lettered name member).names),
    Path.components_child target isName_steps, List.append_assoc]
  rfl

theorem components_stepPath (lettered : Lettered id) (target : Path) {item : Pass × Nat}
    (isPass : item ∈ Pass.all.zipIdx) :
    ((stepsPlace target id).child (Pass.stepFile item.2 item.1)).components =
      target.components ++
        (stepsDirectory :: (bareSegments id ++ [Pass.stepFile item.2 item.1])).map
          Component.named := by
  rw [Path.components_child _ (isStep_all item isPass).plain, components_stepsPlace lettered,
    List.append_assoc]
  simp

/-- Every file of a result is behind names in the target. -/
theorem components_filePath (lettered : Lettered id) (member : path ∈ filePaths target id) :
    path.EndsInName ∧ ∃ names, ResultNames id names ∧
      path.components = target.components ++ names.map Component.named := by
  rcases List.mem_append.1 member with isStep | isPlace
  · obtain ⟨item, isPass, rfl⟩ := List.mem_map.1 isStep
    exact ⟨Path.endsInName_child _ (isStep_all item isPass).plain, _, .step isPass,
      components_stepPath lettered target isPass⟩
  · rw [List.mem_singleton.1 isPlace]
    exact ⟨endsInName_stage isName_optimized isExtension_document lettered.placeable target,
      _, .optimized,
      components_stage isName_optimized isExtension_document lettered.placeable target⟩

theorem stepFile_dotted : ∀ item ∈ Pass.all.zipIdx,
    '.' ∈ (Pass.stepFile item.2 item.1).toList.tail := by
  decide +kernel

/-- The directory of the results of passes and that of optimized documents are apart. -/
theorem stages_apart (rest more : List String) :
    ¬stepsDirectory :: rest <+: optimizedDirectory :: more ∧
      ¬optimizedDirectory :: more <+: stepsDirectory :: rest := by
  constructor
  · exact fun starts => absurd (List.cons_prefix_cons.1 starts).1 (by decide)
  · exact fun starts => absurd (List.cons_prefix_cons.1 starts).1 (by decide)

/-- No file of one object is above or at a file of another, unless their places are. -/
theorem ResultNames.apart (lettered : Lettered id) (letteredTwin : Lettered twin)
    (apart : ¬segments documentExtension id <+: segments documentExtension twin)
    (areNames : ResultNames id names) (areOthers : ResultNames twin others) :
    ¬names <+: others := by
  cases areNames with
  | optimized =>
    cases areOthers with
    | optimized => exact fun starts => apart (List.cons_prefix_cons.1 starts).2
    | step isPass => exact (stages_apart _ _).2
  | step isPass =>
    cases areOthers with
    | optimized => exact (stages_apart _ _).1
    | step isPassTwin =>
      intro starts
      rcases List.prefix_concat_iff.1 (List.cons_prefix_cons.1 starts).2 with same | inside
      · have whole : segments documentExtension id = segments documentExtension twin := by
          rw [ObjectName.segments_eq_fileBelow lettered,
            ObjectName.segments_eq_fileBelow letteredTwin, (List.append_inj' same rfl).1]
        exact apart (whole ▸ List.prefix_rfl)
      · exact ObjectName.dotted_first (stepFile_dotted _ isPass)
          (ObjectName.bareSegments_ne_nil lettered) inside

/-- Neither object has its place inside that of the other. -/
def PlacesClear (target : Path) (id twin : String) : Prop :=
  ¬(optimizedPlace target id).components <+: (optimizedPlace target twin).components

theorem PlacesClear.segments (lettered : Lettered id) (letteredTwin : Lettered twin)
    (clear : PlacesClear target id twin) :
    ¬segments documentExtension id <+: segments documentExtension twin := by
  rintro ⟨rest, same⟩
  apply clear
  unfold optimizedPlace
  rw [components_stage isName_optimized isExtension_document lettered.placeable,
    components_stage isName_optimized isExtension_document letteredTwin.placeable, ← same]
  exact ⟨rest.map Component.named, by simp⟩

/-- No file of one object leads to or above a file of another. -/
theorem goal_filePath_apart (lettered : Lettered id) (letteredTwin : Lettered twin)
    (clear : PlacesClear target id twin) (isFile : path ∈ filePaths target id)
    (isOther : other ∈ filePaths target twin) (current : Location) :
    ¬path.goal current <+: other.goal current := by
  obtain ⟨_, names, areNames, behind⟩ := components_filePath lettered isFile
  obtain ⟨_, others, areOthers, behindOther⟩ := components_filePath letteredTwin isOther
  rw [Path.goal_of_names current behind, Path.goal_of_names current behindOther,
    List.prefix_append_right_inj]
  exact areNames.apart lettered letteredTwin (clear.segments lettered letteredTwin) areOthers

/-- The place of an optimized form is not at or above a result of a pass. -/
theorem goal_optimizedPlace_apart (lettered : Lettered id) (isStep : path ∈ stepPaths target id)
    (current : Location) : ¬(optimizedPlace target id).goal current <+: path.goal current := by
  obtain ⟨item, isPass, rfl⟩ := List.mem_map.1 isStep
  have behind := components_stepPath lettered target isPass
  have place := components_stage isName_optimized isExtension_document lettered.placeable target
  rw [Path.goal_of_names current behind, optimizedPlace, Path.goal_of_names current place,
    List.prefix_append_right_inj]
  exact (stages_apart _ _).2

theorem above_subset_way {reached : Location} (member : reached ∈ path.above current) :
    reached ∈ path.way current := by
  unfold Path.above at member
  unfold Path.way
  rcases List.eq_nil_or_concat path.components with none | ⟨front, last, split⟩
  · rw [none] at member
    exact absurd member (by simp [Path.wayFrom])
  · rw [List.concat_eq_append] at split
    rw [split, List.dropLast_concat] at member
    rw [split, Path.wayFrom_append]
    exact List.mem_append_left _ member

/-- Where nothing but directories is left upwards, a file that is not at or above another one, and
no directory, is not in its way. -/
theorem not_above (sound : disk.Sound) (passable : disk.Passable other)
    (apart : ¬path.goal disk.current <+: other.goal disk.current)
    (noDirectory : disk.directoryAt (path.goal disk.current) = false) :
    path.goal disk.current ∉ other.above disk.current := by
  intro member
  rcases Path.way_onward (above_subset_way member) with onWay | ⟨passed, left, below⟩
  · exact apart onWay
  · rw [sound.directory_above (passable passed left) below] at noDirectory
    exact absurd noDirectory (by simp)

/-- Where nothing but directories is left upwards, no file is in its own way. -/
theorem not_above_self (sound : disk.Sound) (ends : path.EndsInName) (passable : disk.Passable path)
    (noDirectory : disk.directoryAt (path.goal disk.current) = false) :
    path.goal disk.current ∉ path.above disk.current := by
  obtain ⟨front, name, split, plain⟩ := ends
  obtain ⟨parent, _, behind⟩ := Path.parent?_of_name split plain
  have isNamed : path.components = parent.components ++ [name].map Component.named := behind
  have goal := Path.goal_of_names disk.current isNamed
  intro member
  unfold Path.above at member
  rw [behind, List.dropLast_concat] at member
  rcases Path.way_onward member with onWay | ⟨passed, left, below⟩
  · rw [goal] at onWay
    have shorter := onWay.length_le
    rw [List.length_append, List.length_singleton] at shorter
    omega
  · rw [← Path.left_of_names disk.current isNamed] at left
    rw [sound.directory_above (passable passed left) below] at noDirectory
    exact absurd noDirectory (by simp)

theorem passable_filePath (lettered : Lettered id) (isFile : path ∈ filePaths target id)
    (passable : disk.Passable target) : disk.Passable path := by
  obtain ⟨_, names, _, behind⟩ := components_filePath lettered isFile
  exact (Disk.passable_of_names behind).2 passable

/-! ## Files that are due -/

/-- The results of passes with their texts, and the document behind the last of them. -/
def passFiles (directory : Path) :
    Nat → List Pass → Document → Except Failure (List (Path × String) × Document)
  | _, [], document => .ok ([], document)
  | index, pass :: rest, document => do
    let next ← pass.apply document
    let text ← next.render
    let (files, last) ← passFiles directory (index + 1) rest next
    pure ((directory.child (Pass.stepFile index pass), text) :: files, last)

/-- The files that the optimized form of a document takes, with their texts. -/
def resultFiles (target : Path) (id : String) (document : Document) :
    Except Failure (List (Path × String)) := do
  let (files, last) ← passFiles (stepsPlace target id) 0 Pass.all document
  let text ← last.render
  pure (files ++ [(optimizedPlace target id, text)])

/-- The files that are to be written for an object with a document: none where its optimized form
is there already. -/
def filesDue (target : Path) (disk : Disk) (item : String × Path) :
    Except Failure (List (Path × String)) :=
  if disk.exists? (optimizedPlace target item.1) then .ok []
  else do
    let document ← Document.load disk item.2
    resultFiles target item.1 document

theorem passFiles_cons {directory : Path} {index : Nat} {pass : Pass} {passes : List Pass}
    {document last : Document} {files : List (Path × String)} :
    passFiles directory index (pass :: passes) document = .ok (files, last) ↔
      ∃ next text rest, pass.apply document = .ok next ∧ next.render = .ok text ∧
        passFiles directory (index + 1) passes next = .ok (rest, last) ∧
        files = (directory.child (Pass.stepFile index pass), text) :: rest := by
  rw [passFiles]
  cases pass.apply document with
  | error failure => simp [bind, Except.bind]
  | ok next =>
    cases rendered : next.render with
    | error failure => simp [bind, Except.bind, rendered]
    | ok text =>
      cases made : passFiles directory (index + 1) passes next with
      | error failure => simp [bind, Except.bind, rendered, made]
      | ok answer =>
        obtain ⟨rest, final⟩ := answer
        simp only [bind, Except.bind, rendered, made, pure, Except.pure, Except.ok.injEq,
          Prod.mk.injEq]
        constructor
        · rintro ⟨isFiles, isLast⟩
          exact ⟨next, text, rest, rfl, rendered, by rw [made, isLast], isFiles.symm⟩
        · rintro ⟨_, _, _, rfl, again, isRest, isFiles⟩
          rw [rendered] at again
          rw [made] at isRest
          obtain ⟨rfl, isLast⟩ := Prod.mk.inj (Except.ok.inj isRest)
          rw [isFiles, Except.ok.inj again]
          exact ⟨rfl, isLast⟩

theorem paths_passFiles {directory : Path} {index : Nat} {passes : List Pass}
    {document last : Document} {files : List (Path × String)}
    (made : passFiles directory index passes document = .ok (files, last)) :
    files.map Prod.fst =
      (passes.zipIdx index).map fun item => directory.child (Pass.stepFile item.2 item.1) := by
  induction passes generalizing index document files with
  | nil =>
    rw [← (Prod.mk.inj (Except.ok.inj made)).1]
    rfl
  | cons pass rest inductionHypothesis =>
    obtain ⟨next, text, others, _, _, madeRest, rfl⟩ := passFiles_cons.1 made
    rw [List.map_cons, inductionHypothesis madeRest, List.zipIdx_cons, List.map_cons]

theorem resultFiles_eq_ok {document : Document} {files : List (Path × String)} :
    resultFiles target id document = .ok files ↔
      ∃ steps last text, passFiles (stepsPlace target id) 0 Pass.all document = .ok (steps, last) ∧
        last.render = .ok text ∧ files = steps ++ [(optimizedPlace target id, text)] := by
  unfold resultFiles
  cases passFiles (stepsPlace target id) 0 Pass.all document with
  | error failure => simp [bind, Except.bind]
  | ok answer =>
    obtain ⟨steps, last⟩ := answer
    cases rendered : last.render with
    | error failure => simp [bind, Except.bind, rendered]
    | ok text =>
      simp only [bind, Except.bind, rendered, pure, Except.pure, Except.ok.injEq, Prod.mk.injEq]
      constructor
      · exact fun same => ⟨steps, last, text, ⟨rfl, rfl⟩, rendered, same.symm⟩
      · rintro ⟨_, _, _, ⟨rfl, rfl⟩, again, isFiles⟩
        rw [rendered] at again
        rw [isFiles, Except.ok.inj again]

/-- Where files are due, an optimized form is missing that can be made of the document. -/
theorem filesDue_eq_ok {item : String × Path} {files : List (Path × String)} :
    filesDue target disk item = .ok files ↔
      (disk.exists? (optimizedPlace target item.1) = true ∧ files = []) ∨
        (disk.exists? (optimizedPlace target item.1) = false ∧
          ∃ document, Document.load disk item.2 = .ok document ∧
            resultFiles target item.1 document = .ok files) := by
  unfold filesDue
  cases disk.exists? (optimizedPlace target item.1) with
  | true =>
    simp only [if_true, Except.ok.injEq, true_and, reduceCtorEq, false_and, or_false]
    exact eq_comm
  | false =>
    cases Document.load disk item.2 <;> simp [bind, Except.bind]

theorem filesDue_paths {item : String × Path} {files : List (Path × String)}
    (due : filesDue target disk item = .ok files) :
    ∀ file ∈ files, file.1 ∈ filePaths target item.1 := by
  intro file member
  rcases filesDue_eq_ok.1 due with ⟨_, none⟩ | ⟨_, document, _, made⟩
  · rw [none] at member
    exact absurd member (by simp)
  · obtain ⟨steps, last, text, madeSteps, _, rfl⟩ := resultFiles_eq_ok.1 made
    have paths : steps.map Prod.fst = stepPaths target item.1 := paths_passFiles madeSteps
    unfold filePaths
    rw [← paths]
    rcases List.mem_append.1 member with isStep | isPlace
    · exact List.mem_append_left _ (List.mem_map_of_mem isStep)
    · rw [List.mem_singleton.1 isPlace]
      simp

/-! ## One document -/

/-- Running passes writes the files that are due for them. -/
theorem runPasses_yields {directory : Path} {index : Nat} {passes : List Pass}
    {document last : Document} :
    (runPasses directory index passes document).Yields before last after ↔
      ∃ files disk, passFiles directory index passes document = .ok (files, last) ∧
        writeAll before.disk files = (.ok (), disk) ∧ after = { before with disk := disk } := by
  induction passes generalizing index document before with
  | nil =>
    unfold runPasses
    rw [Step.yields_pure]
    constructor
    · rintro ⟨rfl, rfl⟩
      exact ⟨[], before.disk, rfl, rfl, rfl⟩
    · rintro ⟨files, disk, made, wrote, rfl⟩
      obtain ⟨rfl, rfl⟩ := Prod.mk.inj (Except.ok.inj made)
      rw [← (Prod.mk.inj wrote).2]
      exact ⟨rfl, rfl⟩
  | cons pass rest inductionHypothesis =>
    simp only [yields_runPasses_cons, Step.yields_save, inductionHypothesis, passFiles_cons]
    constructor
    · rintro ⟨next, _, applied, ⟨text, disk, rendered, wrote, rfl⟩, files, final, made, ranRest, rfl⟩
      exact ⟨_, final, ⟨next, text, files, applied, rendered, made, rfl⟩,
        Document.writeAll_cons.2 ⟨disk, wrote, ranRest⟩, rfl⟩
    · rintro ⟨_, final, ⟨next, text, files, applied, rendered, made, rfl⟩, ran, rfl⟩
      obtain ⟨disk, wrote, ranRest⟩ := Document.writeAll_cons.1 ran
      exact ⟨next, _, applied, ⟨text, disk, rendered, wrote, rfl⟩, files, final, made, ranRest, rfl⟩

/-- An attempt at a document succeeds exactly when all files that are due can be made and
written. -/
theorem optimizeDocument_yields {xmir answer : Path} :
    (optimizeDocument target id xmir).Yields before answer after ↔
      answer = optimizedPlace target id ∧ ∃ files disk,
        filesDue target before.disk (id, xmir) = .ok files ∧
          writeAll before.disk files = (.ok (), disk) ∧ after = { before with disk := disk } := by
  simp only [yields_optimizeDocument, Step.yields_save, runPasses_yields, filesDue_eq_ok,
    resultFiles_eq_ok]
  refine and_congr_right fun _ => ?_
  constructor
  · rintro (⟨there, rfl⟩ | ⟨missing, document, last, _, loaded, ⟨steps, disk, made, wrote, rfl⟩, text,
      final, rendered, wroteLast, rfl⟩)
    · exact ⟨[], before.disk, Or.inl ⟨there, rfl⟩, rfl, rfl⟩
    · have single : writeAll disk [(optimizedPlace target id, text)] = (.ok (), final) :=
        Document.writeAll_cons.2 ⟨final, wroteLast, rfl⟩
      exact ⟨_, final, Or.inr ⟨missing, document, loaded, steps, last, text, made, rendered, rfl⟩,
        Document.writeAll_append.2 ⟨disk, wrote, single⟩, rfl⟩
  · rintro ⟨files, final, ⟨there, rfl⟩ | ⟨missing, document, loaded, steps, last, text, made, rendered,
      rfl⟩, ran, rfl⟩
    · rw [← (Prod.mk.inj ran).2]
      exact Or.inl ⟨there, rfl⟩
    · obtain ⟨disk, wrote, ranLast⟩ := Document.writeAll_append.1 ran
      obtain ⟨same, wroteLast, isFinal⟩ := Document.writeAll_cons.1 ranLast
      rw [(Prod.mk.inj isFinal).2] at wroteLast
      exact Or.inr ⟨missing, document, last, _, loaded, ⟨steps, disk, made, wrote, rfl⟩, text, final,
        rendered, wroteLast, rfl⟩

/-! ## What an attempt leaves -/

/-- Between two workspaces files at some places were written, and directories made above some. -/
structure AltersFiles (written raised : List Path) (before after : Workspace) : Prop where
  rest : after = { before with disk := after.disk }
  touches : Touches (written.map (Path.goal before.disk.current)) []
    (raised.flatMap (Path.above before.disk.current)) before.disk after.disk

namespace AltersFiles

variable {written raised more further : List Path} {between : Workspace}

theorem refl (sound : before.disk.Sound) : AltersFiles written raised before before :=
  ⟨rfl, .refl sound⟩

theorem mono (alters : AltersFiles written raised before after) (moreWritten : written ⊆ more)
    (moreRaised : raised ⊆ further) : AltersFiles more further before after where
  rest := alters.rest
  touches := by
    apply alters.touches.mono
    · exact fun location member => List.map_subset _ moreWritten member
    · exact fun location => id
    · intro location member
      obtain ⟨path, among, inside⟩ := List.mem_flatMap.1 member
      exact List.mem_flatMap.2 ⟨path, moreRaised among, inside⟩

theorem trans (first : AltersFiles written raised before between)
    (second : AltersFiles written raised between after) :
    AltersFiles written raised before after where
  rest := by
    rw [second.rest, first.rest]
  touches := by
    have later := second.touches
    rw [first.touches.current] at later
    exact first.touches.trans later

end AltersFiles

/-- A document that is saved alters its file; where it can't be written, directories above it may
have been made. -/
theorem save_any {document : Document} {outcome : Except Failure Unit} (sound : before.disk.Sound)
    (ends : path.EndsInName) (ran : (Step.save document path).perform before = (outcome, after)) :
    AltersFiles [path] [path] before after ∧
      ∀ failure, outcome = .error failure → AltersFiles [] [path] before after := by
  obtain ⟨disk, saved, rfl⟩ := Step.perform_onDisk ran
  unfold Document.save at saved
  cases rendered : document.render with
  | error refusal =>
    rw [rendered] at saved
    rw [← (Prod.mk.inj saved).2]
    exact ⟨.refl sound, fun _ _ => .refl sound⟩
  | ok text =>
    rw [rendered] at saved
    obtain ⟨made, touches, _, isMade, unwritten⟩ := Document.writeBelow_any sound saved
    rw [isMade ends] at touches unwritten
    have single : ∀ {written},
        Touches written [] (path.above before.disk.current) before.disk disk →
          Touches written [] ([path].flatMap (Path.above before.disk.current)) before.disk
            disk := by
      intro written touches
      simpa using touches
    exact ⟨⟨rfl, single touches⟩, fun failure failed => ⟨rfl, single (unwritten failure failed)⟩⟩

theorem save_alters {written raised : List Path} {begin_ : Workspace} (document : Document)
    (ends : path.EndsInName) (isWritten : path ∈ written) (isRaised : path ∈ raised) :
    (Step.save document path).KeepsThroughout (AltersFiles written raised begin_) := by
  intro before outcome after alters ran
  apply alters.trans
  apply (save_any alters.touches.sound ends ran).1.mono
  · simpa using isWritten
  · simpa using isRaised

theorem runPasses_alters {written raised : List Path} {begin_ : Workspace} {directory : Path}
    {passes : List Pass} {index : Nat} {document : Document}
    (places : ∀ item ∈ passes.zipIdx index,
      (directory.child (Pass.stepFile item.2 item.1)).EndsInName ∧
        directory.child (Pass.stepFile item.2 item.1) ∈ written ∧
          directory.child (Pass.stepFile item.2 item.1) ∈ raised) :
    (runPasses directory index passes document).KeepsThroughout
      (AltersFiles written raised begin_) := by
  induction passes generalizing index document with
  | nil => exact .pure
  | cons pass rest inductionHypothesis =>
    rw [List.zipIdx_cons] at places
    obtain ⟨⟨ends, isWritten, isRaised⟩, later⟩ := List.forall_mem_cons.1 places
    rw [runPasses]
    refine .bind .ofOutcome fun next => ?_
    exact .bind (save_alters next ends isWritten isRaised) fun _ => inductionHypothesis later

theorem stepPaths_subset (target : Path) (id : String) :
    stepPaths target id ⊆ filePaths target id :=
  List.subset_append_left _ _

/-- Whatever becomes of an attempt, it alters the files of the object only; where it fails, the
optimized form is not written. -/
theorem optimizeDocument_alters {xmir : Path} {outcome : Except Failure Path}
    (lettered : Lettered id) (sound : before.disk.Sound)
    (ran : (optimizeDocument target id xmir).perform before = (outcome, after)) :
    AltersFiles (filePaths target id) (filePaths target id) before after ∧
      ∀ failure, outcome = .error failure →
        AltersFiles (stepPaths target id) (filePaths target id) before after := by
  have widen : ∀ {present}, AltersFiles (stepPaths target id) (filePaths target id) before present →
      AltersFiles (filePaths target id) (filePaths target id) before present :=
    fun alters => alters.mono (stepPaths_subset target id) (List.Subset.refl _)
  have unchanged : AltersFiles (stepPaths target id) (filePaths target id) before before :=
    .refl sound
  have isPlace : optimizedPlace target id ∈ filePaths target id := by simp [filePaths]
  have passes : ∀ document, (runPasses (stepsPlace target id) 0 Pass.all document).KeepsThroughout
      (AltersFiles (stepPaths target id) (filePaths target id) before) := by
    intro document
    apply runPasses_alters
    intro item member
    have isStep :
        (stepsPlace target id).child (Pass.stepFile item.2 item.1) ∈ stepPaths target id :=
      List.mem_map_of_mem member
    exact ⟨Path.endsInName_child _ (isStep_all item member).plain, isStep,
      stepPaths_subset target id isStep⟩
  unfold optimizeDocument at ran
  rw [Step.perform_look_bind] at ran
  split at ran
  · obtain ⟨rfl, rfl⟩ := Prod.mk.inj ran
    exact ⟨.refl sound, fun _ _ => unchanged⟩
  rcases Step.ends_bind ran with ⟨failure, unread, rfl⟩ | ⟨document, present, loaded, ran⟩
  · obtain ⟨_, rfl⟩ := Prod.mk.inj unread
    exact ⟨.refl sound, fun _ _ => unchanged⟩
  obtain ⟨_, rfl⟩ := Prod.mk.inj loaded
  rcases Step.ends_bind ran with ⟨failure, stopped, rfl⟩ | ⟨last, between, passed, ran⟩
  · have steps := passes document _ _ after unchanged stopped
    exact ⟨widen steps, fun _ _ => steps⟩
  have steps := passes document _ _ between unchanged passed
  obtain ⟨answer, saved, rfl⟩ := Step.ends_map ran
  have ends := endsInName_stage isName_optimized isExtension_document lettered.placeable target
  have whole := save_alters last ends isPlace isPlace between answer after (widen steps) saved
  refine ⟨whole, fun failure isFailure => ?_⟩
  cases answer with
  | ok value => exact absurd isFailure (by simp [Except.map])
  | error cause =>
    have failed := (save_any steps.touches.sound ends saved).2 cause rfl
    refine steps.trans (failed.mono (by simp) ?_)
    exact fun other member => List.mem_singleton.1 member ▸ isPlace

end Build

end EoAssembly
