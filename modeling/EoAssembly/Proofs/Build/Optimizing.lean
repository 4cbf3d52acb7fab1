import EoAssembly.Proofs.Build.Progress

/-!
Contract: how far optimizing brings a build.

Optimizing goes on with the objects that have a document and no optimized one yet.
It first writes the optimized documents of all of them, with the results of the
passes beside them, and then records them: in between, an object has an optimized
document that its record does not name.

Owns what optimizing makes of the marks of objects.
-/

namespace EoAssembly.Build

open ObjectName (Placeable)

variable {settings : Settings} {remote : Remote} {start before after : Workspace} {front : Front}
  {asked : List String} {id text : String}

/-- An object whose optimized document is written. -/
def Marks.make (marks : Marks) : Marks := { marks with made := True }

/-- An object whose optimized document is recorded. -/
def Marks.optimize (marks : Marks) : Marks := { marks with optimized := True }

theorem Marks.stands_make (marks : Marks) (other : Shelf) :
    marks.make.stands other ↔ marks.stands other ∨ other = .optimized := by
  cases other <;> simp [Marks.stands, Marks.make]

theorem Marks.stands_optimize (marks : Marks) (other : Shelf) :
    marks.optimize.stands other ↔ marks.stands other := by
  cases other <;> rfl

theorem Describes.make {disk : Disk} {marks : Marks} {record : Record}
    (describes : Describes settings disk id marks record) :
    Describes settings disk id marks.make record :=
  ⟨describes.ofProject, describes.ofStore, describes.unsourced, describes.parsed,
    describes.unparsed, describes.optimized, describes.unoptimized, describes.discovered⟩

theorem Describes.optimize {disk : Disk} {marks : Marks} {old : Record}
    (describes : Describes settings disk id marks old) :
    Describes settings disk id marks.optimize
      { asOptimized (optimizedPlace settings.target id) old with id := old.id } where
  ofProject := describes.ofProject
  ofStore := describes.ofStore
  unsourced := describes.unsourced
  parsed := describes.parsed
  unparsed := describes.unparsed
  optimized _ := rfl
  unoptimized waits := absurd trivial waits
  discovered := describes.discovered

/-- A written document goes on with the files only. -/
theorem Progress.make {disk : Disk} (progress : Progress settings remote start front asked before)
    (known : (front id).known)
    (filed : Filed settings remote start.disk (Front.stands (front.mark [id] Marks.make)) disk) :
    Progress settings remote start (front.mark [id] Marks.make) asked
      { before with disk := disk } := by
  have keeps : ∀ (mark : Marks → Prop), (∀ marks : Marks, mark marks.make ↔ mark marks) →
      ∀ twin, mark (front.mark [id] Marks.make twin) ↔ mark (front twin) :=
    fun mark same twin => Front.mark_keeps Marks.make mark same
  have sameKnown := keeps Marks.known fun _ => Iff.rfl
  have sameSourced := keeps Marks.sourced fun _ => Iff.rfl
  have sameDiscovered := keeps Marks.discovered fun _ => Iff.rfl
  refine ⟨⟨progress.recorded.sorted, progress.recorded.path, ?_, ?_, ?_⟩, filed,
    progress.asked.mark Iff.rfl, ?_, ?_, ?_, ?_⟩
  · intro twin
    rw [sameKnown]
    exact progress.recorded.known twin
  · intro twin
    have within := progress.recorded.within twin
    rcases front.mark_single id Marks.make twin with ⟨isId, changed⟩ | ⟨_, same⟩
    · rw [changed]
      exact ⟨within.1, within.2.1, fun _ => isId ▸ known, within.2.2.2⟩
    · rw [same]
      exact within
  · intro twin record found
    have describes := progress.recorded.describes twin record found
    rcases front.mark_single id Marks.make twin with ⟨_, changed⟩ | ⟨_, same⟩
    · rw [changed]
      exact describes.make
    · rw [same]
      exact describes
  · exact fun twin here => progress.needed twin ((sameKnown twin).1 here)
  · exact fun twin here => progress.placeable twin ((sameSourced twin).1 here)
  · exact fun twin here => progress.readable twin ((sameDiscovered twin).1 here)
  · exact fun twin here => (sameSourced twin).2 (progress.registered twin here)

/-- Passes run one after the other, and what they keep is on no shelf. -/
theorem runPasses_effect {standing : Shelf → String → Prop} {passes : List Pass} {index : Nat}
    {document result : Document} (scene : Scene settings remote start.disk)
    (filed : Filed settings remote start.disk standing before.disk) (placeable : Placeable id)
    (steps : ∀ item ∈ passes.zipIdx index, IsStep (Pass.stepFile item.2 item.1))
    (ran : (runPasses (stepsPlace settings.target id) index passes document).Yields before result
      after) :
    Pass.runAll passes document = .ok result ∧
      ∃ disk, after = { before with disk := disk } ∧
        Filed settings remote start.disk standing disk := by
  induction passes generalizing index document before with
  | nil =>
    obtain ⟨same, rfl⟩ := Step.yields_pure.1 ran
    exact ⟨congrArg Except.ok same, before.disk, rfl, filed⟩
  | cons pass rest inductionHypothesis =>
    obtain ⟨next, between, applied, saved, ranRest⟩ := yields_runPasses_cons.1 ran
    obtain ⟨text, disk, _, wrote, result⟩ := Step.yields_save.1 saved
    rw [List.zipIdx_cons] at steps
    have isStep := steps (pass, index) List.mem_cons_self
    have filedBetween : Filed settings remote start.disk standing between.disk := by
      rw [result]
      exact filed.write_clear (fun shelf => scene.separate.step_clear placeable isStep) wrote
    obtain ⟨runs, last, same, filedLast⟩ := inductionHypothesis filedBetween
      (fun item member => steps item (List.mem_cons_of_mem _ member)) ranRest
    refine ⟨?_, last, ?_, filedLast⟩
    · unfold Pass.runAll
      rw [applied]
      exact runs
    · rw [same, result]

/-- Optimizing a document goes on with its optimized form. -/
theorem Progress.optimizeDocument {place : Path} (scene : Scene settings remote start.disk)
    (progress : Progress settings remote start front asked before) (sourced : (front id).sourced)
    (parsed : (front id).parsed)
    (ran : (optimizeDocument settings.target id (parsedPlace settings.target id)).Yields before
      place after) :
    place = optimizedPlace settings.target id ∧ after.foreign = before.foreign ∧
      Progress settings remote start (front.mark [id] Marks.make) asked after := by
  have known := (progress.recorded.within id).1 sourced
  have needed := progress.needed id known
  have placeable := progress.placeable id sourced
  obtain ⟨rfl, ⟨there, rfl⟩ | ⟨_, document, optimized, between, isDocument, ranPasses, saved⟩⟩ :=
    yields_optimizeDocument.1 ran
  · have made : (front id).made := by
      by_cases made : (front id).made
      · exact made
      · have missing : before.disk.exists? (optimizedPlace settings.target id) = false :=
          progress.filed.not_exists? .optimized needed placeable made
        rw [missing] at there
        exact absurd there (by simp)
    refine ⟨rfl, rfl, ?_⟩
    rw [Front.mark_eq (fun twin member => ?_) (fun twin _ => rfl)]
    · exact progress
    · rw [List.mem_singleton.1 member]
      ext <;> simp [Marks.make, made]
  · obtain ⟨text, stands, isText⟩ :=
      progress.filed.entry_file .parsed rfl needed placeable parsed
    obtain ⟨runs, disk, result, filed⟩ :=
      runPasses_effect scene progress.filed placeable isStep_all ranPasses
    obtain ⟨written, last, rendered, wrote, resultLast⟩ := Step.yields_save.1 saved
    rw [result] at wrote resultLast
    have holds : optimizedText settings remote start.disk id = .ok written := by
      have reads : Document.ofText text (parsedPlace settings.target id).text = .ok document := by
        have atPlace : before.disk.entry? (parsedPlace settings.target id) =
            some (.file (.text text)) := stands
        rw [← Document.load_of_text atPlace]
        exact isDocument
      have isParsed : parsedText settings remote start.disk id = .ok text := isText
      unfold optimizedText
      rw [isParsed]
      change (Document.ofText text (parsedPlace settings.target id).text >>= fun document => _) = _
      rw [reads]
      change (Pass.runAll Pass.all document >>= fun optimized => _) = _
      rw [runs]
      exact rendered
    have filedLast := filed.write .optimized scene needed placeable holds
      (Front.stands_mark Marks.stands_make) wrote
    rw [resultLast]
    exact ⟨rfl, rfl, progress.make known filedLast⟩

theorem Progress.optimizeEach {pending done : List (String × Path)}
    (scene : Scene settings remote start.disk)
    (progress : Progress settings remote start front asked before)
    (waiting : ∀ item ∈ pending, (front item.1).sourced ∧ (front item.1).parsed ∧
      item.2 = parsedPlace settings.target item.1)
    (ran : (optimizeEach settings.target pending).Yields before done after) :
    done = pending.map (fun item => (item.1, optimizedPlace settings.target item.1)) ∧
      after.foreign = before.foreign ∧
      Progress settings remote start (front.mark (pending.map Prod.fst) Marks.make) asked after := by
  induction pending generalizing front before done with
  | nil =>
    obtain ⟨same, rfl⟩ := Step.yields_pure.1 ran
    refine ⟨same.symm, rfl, ?_⟩
    rw [List.map_nil, Front.mark_nil]
    exact progress
  | cons first rest inductionHypothesis =>
    obtain ⟨id, xmir⟩ := first
    obtain ⟨place, between, others, ranFirst, ranRest, same⟩ := yields_optimizeEach_cons.1 ran
    obtain ⟨sourced, parsed, isPlace⟩ := waiting (id, xmir) List.mem_cons_self
    simp only at sourced parsed isPlace
    rw [isPlace] at ranFirst
    obtain ⟨isOptimized, foreign, one⟩ := progress.optimizeDocument scene sourced parsed ranFirst
    have stillWaiting : ∀ item ∈ rest, (front.mark [id] Marks.make item.1).sourced ∧
        (front.mark [id] Marks.make item.1).parsed ∧
          item.2 = parsedPlace settings.target item.1 := by
      intro item member
      rw [Front.mark_keeps Marks.make Marks.sourced fun _ => Iff.rfl,
        Front.mark_keeps Marks.make Marks.parsed fun _ => Iff.rfl]
      exact waiting item (List.mem_cons_of_mem _ member)
    obtain ⟨sameOthers, foreignRest, all⟩ := inductionHypothesis one stillWaiting ranRest
    rw [Front.mark_cons Marks.make fun _ => rfl] at all
    refine ⟨?_, foreignRest.trans foreign, all⟩
    rw [same, isOptimized, sameOthers]
    rfl

theorem Progress.recordOptimized {done : List (String × Path)}
    (scene : Scene settings remote start.disk)
    (progress : Progress settings remote start front asked before)
    (places : ∀ item ∈ done, item.2 = optimizedPlace settings.target item.1)
    (ran : (recordOptimized done).Yields before () after) :
    Progress settings remote start (front.mark (done.map Prod.fst) Marks.optimize) asked after := by
  induction done generalizing front before with
  | nil =>
    rw [List.map_nil, Front.mark_nil, ← (Step.yields_pure.1 ran).2]
    exact progress
  | cons first rest inductionHypothesis =>
    obtain ⟨id, place⟩ := first
    obtain ⟨record, between, ranFirst, ranRest⟩ := Step.yields_bind.1 ran
    have isPlace : place = optimizedPlace settings.target id := places (id, place) List.mem_cons_self
    rw [isPlace] at ranFirst
    have filed := progress.filed
    rw [← Front.stands_same Marks.stands_optimize] at filed
    have one := progress.update scene rfl filed (progress.asked.mark Iff.rfl)
      (fun known => known) (fun here => here) (progress.placeable id) (progress.readable id)
      (fun _ describes => describes.optimize) ranFirst
    have all := inductionHypothesis one
      (fun item member => places item (List.mem_cons_of_mem _ member)) ranRest
    rw [Front.mark_cons Marks.optimize fun _ => rfl] at all
    exact all

/-- What waits for its optimized form has a document and no optimized one. -/
theorem Progress.mem_unoptimized {place : Path}
    (progress : Progress settings remote start front asked before) :
    (id, place) ∈ unoptimized before.foreign ↔
      (front id).parsed ∧ ¬(front id).optimized ∧ place = parsedPlace settings.target id := by
  unfold unoptimized
  rw [List.mem_filterMap]
  constructor
  · rintro ⟨record, member, awaits⟩
    have describes := progress.recorded.describes _ record
      (Catalog.find?_of_mem progress.recorded.sorted member)
    unfold awaitsOptimize at awaits
    split at awaits
    · next none =>
      obtain ⟨xmir, isParsed, same⟩ := Option.map_eq_some_iff.1 awaits
      obtain ⟨rfl, rfl⟩ := Prod.mk.inj same
      have parsed : (front record.id).parsed := describes.xmir_iff.1 (by rw [isParsed]; rfl)
      refine ⟨parsed, fun optimized => ?_, ?_⟩
      · rw [describes.optimized optimized] at none
        exact absurd none (by simp)
      · rw [describes.parsed parsed] at isParsed
        exact (Option.some.inj isParsed).symm
    · exact absurd awaits (by simp)
  · rintro ⟨parsed, waits, same⟩
    have known := (progress.recorded.within id).2.1 parsed
    obtain ⟨record, found⟩ := (progress.recorded.known id).2 known
    have describes := progress.recorded.describes id record found
    refine ⟨record, Catalog.mem_of_find? found, ?_⟩
    unfold awaitsOptimize
    rw [describes.unoptimized waits, describes.parsed parsed, Catalog.id_of_find? found, same]
    rfl

/-- Optimizing goes on with every object that has a document. -/
theorem Progress.optimizeAll {count : Nat} (scene : Scene settings remote start.disk)
    (progress : Progress settings remote start front asked before)
    (sourced : ∀ id, (front id).parsed → (front id).sourced)
    (made : ∀ id, (front id).optimized → (front id).made)
    (ran : (optimizeAll settings.target).Yields before count after) :
    Progress settings remote start
      (fun id => { front id with
        made := (front id).made ∨ (front id).parsed
        optimized := (front id).optimized ∨ (front id).parsed }) asked after ∧
      ((∀ id, (front id).parsed → (front id).optimized) → after = before) := by
  obtain ⟨done, between, ranEach, ranRecord, _⟩ := yields_optimizeAll.1 ran
  have mem_ids : ∀ id, id ∈ (unoptimized before.foreign).map Prod.fst ↔
      (front id).parsed ∧ ¬(front id).optimized := by
    intro id
    rw [List.mem_map]
    constructor
    · rintro ⟨⟨twin, place⟩, member, rfl⟩
      obtain ⟨parsed, waits, _⟩ := progress.mem_unoptimized.1 member
      exact ⟨parsed, waits⟩
    · rintro ⟨parsed, waits⟩
      exact ⟨(id, _), progress.mem_unoptimized.2 ⟨parsed, waits, rfl⟩, rfl⟩
  constructor
  · obtain ⟨isDone, _, written⟩ := progress.optimizeEach scene (fun item member => by
      obtain ⟨parsed, _, place⟩ := progress.mem_unoptimized.1 member
      exact ⟨sourced item.1 parsed, parsed, place⟩) ranEach
    have recorded := written.recordOptimized scene (fun item member => by
      rw [isDone] at member
      obtain ⟨old, _, same⟩ := List.mem_map.1 member
      rw [← same]) ranRecord
    have sameIds : done.map Prod.fst = (unoptimized before.foreign).map Prod.fst := by
      rw [isDone, List.map_map]
      rfl
    rw [sameIds, Front.mark_eq (fun id member => ?_) (fun id free => ?_)] at recorded
    · exact recorded
    · rw [Front.mark_of_mem member]
      have parsed := ((mem_ids id).1 member).1
      ext <;> simp [Marks.make, Marks.optimize, parsed]
    · rw [Front.mark_of_not_mem free]
      have settled : (front id).parsed → (front id).optimized := by
        intro parsed
        by_cases optimized : (front id).optimized
        · exact optimized
        · exact absurd ((mem_ids id).2 ⟨parsed, optimized⟩) free
      ext <;> simp
      · exact fun parsed => made id (settled parsed)
      · exact settled
  · intro finished
    have nothing : unoptimized before.foreign = [] := by
      rw [List.eq_nil_iff_forall_not_mem]
      intro item member
      obtain ⟨parsed, waits, _⟩ := progress.mem_unoptimized.1 member
      exact waits (finished item.1 parsed)
    rw [nothing] at ranEach
    obtain ⟨none, rfl⟩ := Step.yields_pure.1 ranEach
    rw [← none] at ranRecord
    exact (Step.yields_pure.1 ranRecord).2.symm

end EoAssembly.Build
