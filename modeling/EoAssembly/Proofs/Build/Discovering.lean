import EoAssembly.Proofs.Build.Progress

/-!
Contract: how far discovering brings a build.

Discovering goes on with the objects that have an optimized document and are not
discovered yet.  It makes the objects known that the documents refer to, and leaves
those as they are that are known already.

Owns what discovering makes of the marks of objects.
-/

namespace EoAssembly.Build

open ObjectName (Placeable)

variable {settings : Settings} {remote : Remote} {start before after : Workspace} {front : Front}
  {asked : List String} {id text : String}

/-- An object that is in the catalog. -/
def Marks.see (marks : Marks) : Marks := { marks with known := True }

/-- An object whose references are in the catalog. -/
def Marks.discover (marks : Marks) : Marks := { marks with discovered := True }

theorem Marks.stands_see (marks : Marks) (other : Shelf) :
    marks.see.stands other ↔ marks.stands other := by
  cases other <;> rfl

theorem Marks.stands_discover (marks : Marks) (other : Shelf) :
    marks.discover.stands other ↔ marks.stands other := by
  cases other <;> rfl

theorem Describes.see {disk : Disk} {marks : Marks} {old : Record} {document : Path}
    (describes : Describes settings disk id marks old) :
    Describes settings disk id marks.see { asSeenIn document old with id := old.id } :=
  ⟨describes.ofProject, describes.ofStore, describes.unsourced, describes.parsed,
    describes.unparsed, describes.optimized, describes.unoptimized, describes.discovered⟩

theorem Describes.discover {disk : Disk} {marks : Marks} {old : Record} {count : Nat}
    (describes : Describes settings disk id marks old) :
    Describes settings disk id marks.discover { asDiscovered count old with id := old.id } :=
  ⟨describes.ofProject, describes.ofStore, describes.unsourced, describes.parsed,
    describes.unparsed, describes.optimized, describes.unoptimized,
    iff_of_true trivial rfl⟩

/-- Nothing is done for an object that is not known. -/
theorem Describes.ofId {disk : Disk} {marks : Marks} (within : marks.Known)
    (foreign : id ∉ registeredIds settings disk) (unknown : ¬marks.known) :
    Describes settings disk id marks.see (.ofId id) where
  ofProject file found := by
    rw [fileOf?_eq_none.2 foreign] at found
    exact absurd found (by simp)
  ofStore _ sourced := absurd (within.1 sourced) unknown
  unsourced _ := ⟨rfl, rfl⟩
  parsed parsed := absurd (within.2.1 parsed) unknown
  unparsed _ := rfl
  optimized optimized := absurd (within.2.2.2.1 optimized) unknown
  unoptimized _ := rfl
  discovered := iff_of_false (fun discovered => unknown (within.2.2.2.2 discovered))
    (by simp [Record.ofId])

theorem mark_see_of_known (known : (front id).known) : front.mark [id] Marks.see = front := by
  refine Front.mark_eq (fun twin member => ?_) fun _ _ => rfl
  rw [List.mem_singleton.1 member]
  ext <;> simp [Marks.see, known]

/-- An object that is added to the catalog is known. -/
theorem Progress.add {record : Record} (scene : Scene settings remote start.disk)
    (progress : Progress settings remote start front asked before)
    (needed : IsNeeded settings remote start.disk id)
    (ran : (Step.addForeign id).Yields before record after) :
    Progress settings remote start (front.mark [id] Marks.see) asked after ∧
      ((front id).known → after = before) := by
  obtain ⟨catalog, disk, added, result⟩ := Step.yields_addForeign.1 ran
  rcases Catalog.add_ok added with ⟨found, same, sameDisk⟩ | ⟨missing, _, same, persisted⟩
  · have known := (progress.recorded.known id).1 ⟨record, found⟩
    rw [mark_see_of_known known, result, same, sameDisk]
    exact ⟨progress, fun _ => rfl⟩
  · have unknown : ¬(front id).known := by
      intro known
      obtain ⟨old, found⟩ := (progress.recorded.known id).2 known
      rw [missing] at found
      exact absurd found (by simp)
    have within := progress.recorded.within id
    have foreign : id ∉ registeredIds settings start.disk := fun registered =>
      unknown (within.1 (progress.registered id registered))
    have keepsSourced : ∀ twin, (front.mark [id] Marks.see twin).sourced ↔ (front twin).sourced :=
      fun _ => Front.mark_keeps Marks.see Marks.sourced fun _ => Iff.rfl
    have recorded : Recorded settings start.disk (front.mark [id] Marks.see) catalog := by
      have fresh : Describes settings start.disk (Record.ofId id).id
          (Marks.see (front (Record.ofId id).id)) (.ofId id) :=
        Describes.ofId within foreign unknown
      rw [same]
      exact progress.recorded.put trivial fresh
    have filed := progress.filed
    rw [← Front.stands_same Marks.stands_see] at filed
    rw [result]
    refine ⟨⟨recorded, filed.persist scene recorded.path persisted, progress.asked.mark Iff.rfl,
      ?_, ?_, ?_, ?_⟩, fun known => absurd known unknown⟩
    · intro twin known
      rcases (Front.mark_gains Marks.see Marks.known fun _ => trivial).1 known with before | here
      · exact progress.needed twin before
      · rw [List.mem_singleton.1 here]
        exact needed
    · exact fun twin sourced => progress.placeable twin ((keepsSourced twin).1 sourced)
    · exact fun twin discovered => progress.readable twin
        ((Front.mark_keeps Marks.see Marks.discovered fun _ => Iff.rfl).1 discovered)
    · exact fun twin registered => (keepsSourced twin).2 (progress.registered twin registered)

/-- A name that is seen in a document is known. -/
theorem Progress.discoverName {optimized : Path} {name : String} {added : Nat}
    (scene : Scene settings remote start.disk)
    (progress : Progress settings remote start front asked before)
    (needed : IsNeeded settings remote start.disk name)
    (ran : (discoverName optimized name).Yields before added after) :
    Progress settings remote start (front.mark [name] Marks.see) asked after := by
  have seen : ∀ {between : Workspace} {record : Record},
      Progress settings remote start (front.mark [name] Marks.see) asked between →
      (Step.updateForeign name (asSeenIn optimized)).Yields between record after →
      Progress settings remote start (front.mark [name] Marks.see) asked after := by
    intro between record there updated
    have known : (front.mark [name] Marks.see name).known :=
      (Front.mark_gains Marks.see Marks.known fun _ => trivial).2
        (Or.inr (List.mem_singleton_self name))
    have filed := there.filed
    rw [← Front.stands_same Marks.stands_see] at filed
    have twice := there.update scene rfl filed (there.asked.mark Iff.rfl) (fun _ => trivial)
      (fun here => here) (there.placeable name) (there.readable name)
      (fun _ describes => describes.see) updated
    rw [mark_see_of_known known] at twice
    exact twice
  rcases yields_discoverName.1 ran with ⟨isKnown, _, _, updated⟩ |
    ⟨_, _, _, between, _, ranAdd, updated⟩
  · have known : (front name).known :=
      (progress.recorded.known name).1 (Option.isSome_iff_exists.1 isKnown)
    rw [← mark_see_of_known known] at progress
    exact seen progress updated
  · exact seen (progress.add scene needed ranAdd).1 updated

theorem Progress.discoverNames {optimized : Path} {names : List String} {added : Nat}
    (scene : Scene settings remote start.disk)
    (progress : Progress settings remote start front asked before)
    (needed : ∀ name ∈ names, IsNeeded settings remote start.disk name)
    (ran : (discoverNames optimized names).Yields before added after) :
    Progress settings remote start (front.mark names Marks.see) asked after := by
  induction names generalizing front before added with
  | nil =>
    rw [Front.mark_nil, ← (Step.yields_pure.1 ran).2]
    exact progress
  | cons name rest inductionHypothesis =>
    obtain ⟨_, between, _, ranFirst, ranRest, _⟩ := yields_discoverNames_cons.1 ran
    have one := progress.discoverName scene (needed name List.mem_cons_self) ranFirst
    rw [← Front.mark_cons Marks.see fun _ => rfl]
    exact inductionHypothesis one (fun other member => needed other (List.mem_cons_of_mem _ member))
      ranRest

/-- The written optimized document of an object is the one that its text determines. -/
theorem namesIn_optimized {standing : Shelf → String → Prop} {disk : Disk}
    (filed : Filed settings remote start.disk standing disk)
    (needed : IsNeeded settings remote start.disk id) (placeable : Placeable id)
    (made : standing .optimized id) :
    ∃ text, optimizedText settings remote start.disk id = .ok text ∧
      namesIn disk (optimizedPlace settings.target id) =
        namesOfText (optimizedPlace settings.target id) text := by
  obtain ⟨text, stands, isText⟩ := filed.entry_file .optimized rfl needed placeable made
  have atPlace : disk.entry? (optimizedPlace settings.target id) = some (.file (.text text)) :=
    stands
  refine ⟨text, isText, ?_⟩
  have loaded : Document.load disk (optimizedPlace settings.target id) =
      Document.ofText text (optimizedPlace settings.target id).text :=
    Document.load_of_text atPlace
  unfold namesIn namesOfText
  rw [loaded]
  cases Document.ofText text (optimizedPlace settings.target id).text <;> rfl

theorem references_of_text {disk : Disk} {names : List String}
    (isText : optimizedText settings remote disk id = .ok text)
    (reads : namesOfText (optimizedPlace settings.target id) text = .ok names) :
    references settings remote disk id = names := by
  unfold references
  rw [isText]
  simp only [reads]

/-- Marks after looking through the documents of objects. -/
def Front.discover (front : Front) (refers : String → List String) (ids : List String) : Front :=
  fun id => { front id with
    known := (front id).known ∨ ∃ other ∈ ids, id ∈ refers other
    discovered := (front id).discovered ∨ id ∈ ids }

theorem Front.discover_nil {refers : String → List String} : front.discover refers [] = front := by
  funext id
  ext <;> simp [Front.discover]

theorem Front.discover_cons {refers : String → List String} {first : String} {rest : List String} :
    Front.discover ((front.mark (refers first) Marks.see).mark [first] Marks.discover) refers rest =
      front.discover refers (first :: rest) := by
  have known : ∀ id, ((front.mark (refers first) Marks.see).mark [first] Marks.discover id).known ↔
      (front id).known ∨ id ∈ refers first := fun id =>
    (Front.mark_keeps Marks.discover Marks.known fun _ => Iff.rfl).trans
      (Front.mark_gains Marks.see Marks.known fun _ => trivial)
  have discovered : ∀ id,
      ((front.mark (refers first) Marks.see).mark [first] Marks.discover id).discovered ↔
        (front id).discovered ∨ id = first := fun id =>
    (Front.mark_gains Marks.discover Marks.discovered fun _ => trivial).trans
      (or_congr (Front.mark_keeps Marks.see Marks.discovered fun _ => Iff.rfl)
        List.mem_singleton)
  have others : ∀ (mark : Marks → Prop), (∀ marks : Marks, mark marks.see ↔ mark marks) →
      (∀ marks : Marks, mark marks.discover ↔ mark marks) → ∀ id,
      mark ((front.mark (refers first) Marks.see).mark [first] Marks.discover id) ↔
        mark (front id) := fun mark see discover id =>
    (Front.mark_keeps Marks.discover mark discover).trans (Front.mark_keeps Marks.see mark see)
  funext id
  unfold Front.discover
  ext
  · rw [known id]
    simp [or_assoc]
  · exact others Marks.sourced (fun _ => Iff.rfl) (fun _ => Iff.rfl) id
  · exact others Marks.parsed (fun _ => Iff.rfl) (fun _ => Iff.rfl) id
  · exact others Marks.made (fun _ => Iff.rfl) (fun _ => Iff.rfl) id
  · exact others Marks.optimized (fun _ => Iff.rfl) (fun _ => Iff.rfl) id
  · rw [discovered id]
    simp [or_assoc]

/-- An object with an optimized document is looked through: its references become known. -/
theorem Progress.discoverObject {record : Record} {added : Nat}
    (scene : Scene settings remote start.disk)
    (progress : Progress settings remote start front asked before)
    (isOptimized : record.optimized = some (optimizedPlace settings.target record.id))
    (sourced : (front record.id).sourced) (made : (front record.id).made)
    (ran : (discoverObject record).Yields before added after) :
    Progress settings remote start
      ((front.mark (references settings remote start.disk record.id) Marks.see).mark [record.id]
        Marks.discover) asked after := by
  have known := (progress.recorded.within record.id).1 sourced
  have needed := progress.needed record.id known
  have placeable := progress.placeable record.id sourced
  obtain ⟨names, between, _, read, ranNames, updated⟩ := (yields_discoverObject isOptimized).1 ran
  obtain ⟨text, isText, same⟩ := namesIn_optimized progress.filed needed placeable made
  rw [same] at read
  rw [← references_of_text isText read] at ranNames
  have seen := progress.discoverNames scene (fun name member => by
    obtain ⟨count, reaches⟩ := needed
    exact ⟨count + 1, .refers reaches member⟩) ranNames
  have filed := seen.filed
  rw [← Front.stands_same Marks.stands_discover] at filed
  exact seen.update scene rfl filed (seen.asked.mark Iff.rfl) (fun known => known)
    (fun here => here) (seen.placeable record.id) (fun _ => ⟨text, names, isText, read⟩)
    (fun _ describes => describes.discover) updated

/-- The objects of records with an optimized document. -/
def optimizedIds (records : List Record) : List String :=
  (records.filter fun record => record.optimized.isSome).map Record.id

theorem Progress.discoverEach {records : List Record} {added : Nat}
    (scene : Scene settings remote start.disk)
    (progress : Progress settings remote start front asked before)
    (ready : ∀ record ∈ records, record.optimized.isSome = true →
      record.optimized = some (optimizedPlace settings.target record.id) ∧
        (front record.id).sourced ∧ (front record.id).made)
    (ran : (discoverEach records).Yields before added after) :
    Progress settings remote start
      (front.discover (references settings remote start.disk) (optimizedIds records)) asked
      after := by
  induction records generalizing front before added with
  | nil =>
    rw [← (Step.yields_pure.1 ran).2]
    unfold optimizedIds
    rw [List.filter_nil, List.map_nil, Front.discover_nil]
    exact progress
  | cons record rest inductionHypothesis =>
    obtain ⟨_, between, _, ranFirst, ranRest, _⟩ := yields_discoverEach_cons.1 ran
    have later := fun other member => ready other (List.mem_cons_of_mem record member)
    by_cases some_ : record.optimized.isSome = true
    · obtain ⟨isOptimized, sourced, made⟩ := ready record List.mem_cons_self some_
      have one := progress.discoverObject scene isOptimized sourced made ranFirst
      have all := inductionHypothesis one (fun other member there => by
        rw [Front.mark_keeps Marks.discover Marks.sourced fun _ => Iff.rfl,
          Front.mark_keeps Marks.see Marks.sourced fun _ => Iff.rfl,
          Front.mark_keeps Marks.discover Marks.made fun _ => Iff.rfl,
          Front.mark_keeps Marks.see Marks.made fun _ => Iff.rfl]
        exact later other member there) ranRest
      rw [Front.discover_cons] at all
      have split : optimizedIds (record :: rest) = record.id :: optimizedIds rest := by
        simp [optimizedIds, some_]
      rw [split]
      exact all
    · have none : record.optimized = none := by
        rw [← Option.isNone_iff_eq_none, ← Option.not_isSome, Bool.not_eq_true']
        exact Bool.eq_false_iff.2 some_
      rw [discoverObject_of_none none] at ranFirst
      rw [← (Step.yields_pure.1 ranFirst).2] at ranRest
      have split : optimizedIds (record :: rest) = optimizedIds rest := by
        simp [optimizedIds, none]
      rw [split]
      exact inductionHypothesis progress later ranRest

theorem Progress.describes_waiting (progress : Progress settings remote start front asked before)
    {record : Record} (member : record ∈ before.foreign.notDiscovered) :
    Describes settings start.disk record.id (front record.id) record ∧
      ¬(front record.id).discovered := by
  obtain ⟨recorded, waits⟩ := List.mem_filter.1 member
  have describes := progress.recorded.describes record.id record
    (Catalog.find?_of_mem progress.recorded.sorted recorded)
  refine ⟨describes, fun discovered => ?_⟩
  have there := describes.discovered.1 discovered
  rw [Option.isNone_iff_eq_none.1 waits] at there
  exact absurd there (by simp)

/-- The objects that wait for being looked through are those that are optimized and not marked. -/
theorem Progress.mem_optimizedIds (progress : Progress settings remote start front asked before)
    {id : String} : id ∈ optimizedIds before.foreign.notDiscovered ↔
      (front id).optimized ∧ ¬(front id).discovered := by
  unfold optimizedIds
  rw [List.mem_map]
  constructor
  · rintro ⟨record, member, rfl⟩
    obtain ⟨waiting, some_⟩ := List.mem_filter.1 member
    obtain ⟨describes, waits⟩ := progress.describes_waiting waiting
    exact ⟨describes.optimized_iff.1 some_, waits⟩
  · rintro ⟨optimized, waits⟩
    have known := (progress.recorded.within id).2.2.2.1 optimized
    obtain ⟨record, found⟩ := (progress.recorded.known id).2 known
    have describes := progress.recorded.describes id record found
    refine ⟨record, List.mem_filter.2 ⟨List.mem_filter.2 ⟨Catalog.mem_of_find? found, ?_⟩, ?_⟩,
      Catalog.id_of_find? found⟩
    · rw [← Option.not_isSome, Bool.not_eq_true']
      exact Bool.eq_false_iff.2 fun there => waits (describes.discovered.2 there)
    · exact describes.optimized_iff.2 optimized

/-- Discovering goes on with every object that has an optimized document. -/
theorem Progress.discoverAll {count : Nat} (scene : Scene settings remote start.disk)
    (progress : Progress settings remote start front asked before)
    (sourced : ∀ id, (front id).optimized → (front id).sourced)
    (made : ∀ id, (front id).optimized → (front id).made)
    (ran : discoverAll.Yields before count after) :
    Progress settings remote start
      (fun id => { front id with
        known := (front id).known ∨ ∃ other, (front other).optimized ∧
          ¬(front other).discovered ∧ id ∈ references settings remote start.disk other
        discovered := (front id).discovered ∨ (front id).optimized }) asked after ∧
      ((∀ id, (front id).optimized → (front id).discovered) → after = before) := by
  have ranEach := yields_discoverAll.1 ran
  constructor
  · have all := progress.discoverEach scene (fun record member some_ => by
      obtain ⟨describes, _⟩ := progress.describes_waiting member
      have optimized := describes.optimized_iff.1 some_
      exact ⟨describes.optimized optimized, sourced record.id optimized, made record.id optimized⟩)
      ranEach
    have same : front.discover (references settings remote start.disk)
        (optimizedIds before.foreign.notDiscovered) = fun id => { front id with
          known := (front id).known ∨ ∃ other, (front other).optimized ∧
            ¬(front other).discovered ∧ id ∈ references settings remote start.disk other
          discovered := (front id).discovered ∨ (front id).optimized } := by
      funext id
      unfold Front.discover
      ext
      · simp [progress.mem_optimizedIds, and_assoc]
      · rfl
      · rfl
      · rfl
      · rfl
      · rw [progress.mem_optimizedIds]
        by_cases discovered : (front id).discovered <;> simp [discovered]
    rw [← same]
    exact all
  · intro finished
    refine discoverEach_idle (fun record member => ?_) ranEach
    obtain ⟨describes, waits⟩ := progress.describes_waiting member
    exact describes.unoptimized fun optimized => waits (finished record.id optimized)

end EoAssembly.Build
