import EoAssembly.Proofs.Build.Progress

/-!
Contract: how far parsing brings a build.

Parsing goes on with the objects that have a source and no document yet.  What it
writes is the text that the sources, the store and the parser determine, as long
as the file that a record names as the source is the one that the object has.

Owns what parsing makes of the marks of objects.
-/

namespace EoAssembly.Build

variable {settings : Settings} {remote : Remote} {start before after : Workspace} {front : Front}
  {asked : List String} {id text : String}

/-- An object with a document. -/
def Marks.parse (marks : Marks) : Marks := { marks with parsed := True }

theorem Describes.parse {disk : Disk} {marks : Marks} {old : Record}
    (describes : Describes settings disk id marks old) :
    Describes settings disk id marks.parse
      { asParsed (parsedPlace settings.target id) old with id := old.id } where
  ofProject := describes.ofProject
  ofStore := describes.ofStore
  unsourced := describes.unsourced
  parsed _ := rfl
  unparsed waits := absurd trivial waits
  optimized := describes.optimized
  unoptimized := describes.unoptimized
  discovered := describes.discovered

theorem Marks.stands_parse (marks : Marks) (other : Shelf) :
    marks.parse.stands other ↔ marks.stands other ∨ other = .parsed := by
  cases other <;> simp [Marks.stands, Marks.parse]

/-- The text that is read as the source of an object is its source. -/
theorem Progress.sourceText {path : Path} (scene : Scene settings remote start.disk)
    (progress : Progress settings remote start front asked before) (sourced : (front id).sourced)
    (isSource : sourceOf before.foreign id = .ok path)
    (read : readSource before.disk path = .ok text) :
    sourceText settings remote start.disk id = .ok text := by
  obtain ⟨record, found, isPath⟩ := sourceOf_eq_ok.1 isSource
  have describes := progress.recorded.describes id record found
  cases file : fileOf? settings start.disk id with
  | some local_ =>
    obtain ⟨registered, _⟩ := lastNamed_mem file
    obtain ⟨some_, names⟩ := scene.named local_ registered
    have joined := (describes.ofProject local_ file).1
    rw [isPath] at joined
    obtain ⟨_, shelved, _⟩ := progress.filed
    rw [Option.some.inj joined,
      shelved.readSource_same (by simp) scene.reaches some_ names] at read
    unfold Build.sourceText
    rw [file]
    exact read
  | none =>
    have foreign := fileOf?_eq_none.1 file
    have known := (progress.recorded.within id).1 sourced
    obtain ⟨written, atPlace, isText⟩ := progress.filed.entry_file .pulled rfl
      ⟨progress.needed id known, foreign⟩ (progress.placeable id sourced) sourced
    have pulled := (describes.ofStore file sourced).1
    rw [isPath] at pulled
    have stands : before.disk.entry? (pulledPlace settings.target id) =
        some (.file (.text written)) := atPlace
    unfold readSource at read
    rw [Option.some.inj pulled, Disk.readText_eq_ok.2 stands] at read
    exact isText.trans read

/-- Parsing an object goes on with its document. -/
theorem Progress.parseObject {place : Path} (scene : Scene settings remote start.disk)
    (progress : Progress settings remote start front asked before) (sourced : (front id).sourced)
    (ran : (parseObject settings remote id).Yields before place after) :
    Progress settings remote start (front.mark [id] Marks.parse) asked after := by
  obtain ⟨_, path, source, made, document, asking, between, _, isSource, read, parsed, isDocument,
    saved, updated⟩ := yields_parseObject.1 ran
  have known := (progress.recorded.within id).1 sourced
  have placeable := progress.placeable id sourced
  obtain ⟨answered, journal⟩ := Step.yields_parse.1 parsed
  obtain ⟨written, disk, rendered, wrote, result⟩ := Step.yields_save.1 saved
  rw [journal] at wrote result
  have isText : parsedText settings remote start.disk id = .ok written := by
    unfold parsedText
    rw [progress.sourceText scene sourced isSource read]
    change (remote.parse id source >>= fun made => _) = _
    rw [answered]
    change (Document.ofText made (parsedPlace settings.target id).text >>= fun document => _) = _
    rw [isDocument]
    exact rendered
  have filed : Filed settings remote start.disk
      (Front.stands (front.mark [id] Marks.parse)) between.disk := by
    rw [result]
    exact progress.filed.write .parsed scene (progress.needed id known) placeable isText
      (Front.stands_mark Marks.stands_parse) wrote
  have asks : Asked settings start (front.mark [id] Marks.parse) asked between.journal := by
    rw [result]
    refine Asked.mark ⟨?_, progress.asked.distinct, progress.asked.sourced⟩ Iff.rfl
    rw [← progress.asked.journal]
    simp [sourcesAsked]
  refine progress.update scene ?_ filed asks (fun known => known) (fun here => here)
    (fun _ => placeable) (progress.readable id) (fun _ describes => describes.parse) updated
  rw [result]

theorem Progress.parseEach {ids : List String} (scene : Scene settings remote start.disk)
    (progress : Progress settings remote start front asked before)
    (sourced : ∀ id ∈ ids, (front id).sourced)
    (ran : (parseEach settings remote ids).Yields before () after) :
    Progress settings remote start (front.mark ids Marks.parse) asked after := by
  induction ids generalizing front before with
  | nil =>
    rw [Front.mark_nil, ← (Step.yields_pure.1 ran).2]
    exact progress
  | cons first rest inductionHypothesis =>
    obtain ⟨place, between, ranFirst, ranRest⟩ := Step.yields_bind.1 ran
    rw [← Front.mark_cons Marks.parse fun _ => rfl]
    have one := progress.parseObject scene (sourced first List.mem_cons_self) ranFirst
    refine inductionHypothesis one (fun id member => ?_) ranRest
    exact (Front.mark_keeps Marks.parse Marks.sourced fun _ => Iff.rfl).2
      (sourced id (List.mem_cons_of_mem first member))

/-- What waits for its document has a source and no document. -/
theorem Progress.mem_unparsed (progress : Progress settings remote start front asked before) :
    id ∈ unparsed before.foreign ↔ (front id).sourced ∧ ¬(front id).parsed := by
  unfold unparsed
  rw [List.mem_map]
  constructor
  · rintro ⟨record, member, rfl⟩
    obtain ⟨recorded, awaits⟩ := List.mem_filter.1 member
    have describes := progress.recorded.describes _ record
      (Catalog.find?_of_mem progress.recorded.sorted recorded)
    unfold awaitsParse at awaits
    obtain ⟨some_, none⟩ := Bool.and_eq_true_iff.1 awaits
    refine ⟨describes.source_iff.1 some_, fun parsed => ?_⟩
    rw [describes.parsed parsed] at none
    exact absurd none (by simp)
  · rintro ⟨sourced, unparsed⟩
    have known := (progress.recorded.within id).1 sourced
    obtain ⟨record, found⟩ := (progress.recorded.known id).2 known
    have describes := progress.recorded.describes id record found
    refine ⟨record, List.mem_filter.2 ⟨Catalog.mem_of_find? found, ?_⟩, Catalog.id_of_find? found⟩
    unfold awaitsParse
    rw [describes.source_iff.2 sourced, describes.unparsed unparsed]
    rfl

/-- Parsing goes on with every object that has a source. -/
theorem Progress.parseAll {count : Nat} (scene : Scene settings remote start.disk)
    (progress : Progress settings remote start front asked before)
    (ran : (parseAll settings remote).Yields before count after) :
    Progress settings remote start
      (fun id => { front id with parsed := (front id).parsed ∨ (front id).sourced }) asked after ∧
      ((∀ id, (front id).sourced → (front id).parsed) → after = before) := by
  have ranEach := (yields_parseAll.1 ran).2
  have all := progress.parseEach scene (fun id member => (progress.mem_unparsed.1 member).1) ranEach
  constructor
  · rw [Front.mark_eq (fun id member => ?_) (fun id free => ?_)] at all
    · exact all
    · have sourced := (progress.mem_unparsed.1 member).1
      ext <;> simp [Marks.parse, sourced]
    · have settled : (front id).sourced → (front id).parsed := by
        intro sourced
        by_cases parsed : (front id).parsed
        · exact parsed
        · exact absurd (progress.mem_unparsed.2 ⟨sourced, parsed⟩) free
      ext <;> simp
      exact settled
  · intro done
    have nothing : unparsed before.foreign = [] := by
      rw [List.eq_nil_iff_forall_not_mem]
      intro id member
      obtain ⟨sourced, waits⟩ := progress.mem_unparsed.1 member
      exact waits (done id sourced)
    rw [nothing] at ranEach
    exact (Step.yields_pure.1 ranEach).2.symm

end EoAssembly.Build
