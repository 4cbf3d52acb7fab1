import EoAssembly.Proofs.Build.Invariant

/-!
Contract: a cycle that leaves the state of every object as it was did nothing
but pull.

No stage takes away a source, a document, an optimized document or a marker.  So
a stage with pending work leaves a state that no later stage brings back, and in
the last cycle of a build nothing is pending.

Owns `Record.Within`, `Catalog.Grows`, and what the last cycle of a settled build
found.

Does not own: what the last pull did.
-/

namespace EoAssembly

/-! ## What stages made -/

/-- What stages made of an object is made of it in a later record, too. -/
structure Record.Within (record later : Record) : Prop where
  source : record.source.isSome = true → later.source.isSome = true
  xmir : record.xmir.isSome = true → later.xmir.isSome = true
  optimized : record.optimized.isSome = true → later.optimized.isSome = true
  discovered : record.discovered.isSome = true → later.discovered.isSome = true

theorem Record.Within.refl (record : Record) : record.Within record :=
  ⟨fun there => there, fun there => there, fun there => there, fun there => there⟩

theorem Record.Within.trans {first second third : Record} (before : first.Within second)
    (after : second.Within third) : first.Within third :=
  ⟨after.source ∘ before.source, after.xmir ∘ before.xmir, after.optimized ∘ before.optimized,
    after.discovered ∘ before.discovered⟩

/-- A change by a stage takes nothing away. -/
theorem Build.StageChange.within {change : Record → Record} (made : StageChange change)
    (record : Record) : record.Within { change record with id := record.id } := by
  cases made <;> constructor <;> intro there <;> first | rfl | exact there

namespace Catalog

variable {before between after : Catalog}

/-- The records of a catalog are in a later one, with all that stages made. -/
def Grows (before after : Catalog) : Prop :=
  ∀ id record, before.find? id = some record →
    ∃ later, after.find? id = some later ∧ record.Within later

theorem Grows.refl (catalog : Catalog) : catalog.Grows catalog :=
  fun _ record found => ⟨record, found, .refl record⟩

theorem Grows.trans (first : before.Grows between) (second : between.Grows after) :
    before.Grows after := by
  intro id record found
  obtain ⟨middle, foundMiddle, within⟩ := first id record found
  obtain ⟨later, foundLater, withinLater⟩ := second id middle foundMiddle
  exact ⟨later, foundLater, within.trans withinLater⟩

theorem grows_put {catalog : Catalog} {record : Record}
    (within : ∀ old, catalog.find? record.id = some old → old.Within record) :
    catalog.Grows (catalog.put record) := by
  intro id old found
  by_cases same : record.id = id
  · rw [← same] at found ⊢
    exact ⟨record, find?_put_same catalog record, within old found⟩
  · exact ⟨old, by rw [find?_put_other catalog same, found], .refl old⟩

/-! ## Equal states -/

theorem find?_state (catalog : Catalog) (id : String) :
    Ordered.find? Record.id id catalog.state = (catalog.find? id).map canonicalRecord := by
  unfold state find? Ordered.find?
  rw [List.find?_map]
  rfl

theorem canonicalRecord_same {catalog other : Catalog} (same : catalog.state = other.state)
    {id : String} {record : Record} (found : catalog.find? id = some record) :
    ∃ twin, other.find? id = some twin ∧ canonicalRecord twin = canonicalRecord record := by
  have seen := find?_state catalog id
  rw [same, find?_state, found] at seen
  obtain ⟨twin, foundTwin, agrees⟩ := Option.map_eq_some_iff.1 seen
  exact ⟨twin, foundTwin, agrees⟩

theorem within_of_canonical {record twin : Record}
    (same : canonicalRecord twin = canonicalRecord record) : record.Within twin := by
  have sources := congrArg (fun seen => seen.source.isSome) same
  have documents := congrArg (fun seen => seen.xmir.isSome) same
  have results := congrArg (fun seen => seen.optimized.isSome) same
  have markers := congrArg (fun seen => seen.discovered.isSome) same
  simp only [canonicalRecord, Option.isSome_map] at sources documents results markers
  exact ⟨sources.trans, documents.trans, results.trans, markers.trans⟩

theorem grows_of_state (same : before.state = after.state) : before.Grows after := by
  intro id record found
  obtain ⟨twin, foundTwin, agrees⟩ := canonicalRecord_same same found
  exact ⟨twin, foundTwin, within_of_canonical agrees⟩

end Catalog

namespace Build

open Step (Keeps)

variable {settings : Settings} {remote : Remote} {before after : Workspace}

/-! ## Growing catalogs -/

/-- The catalog of a build is in order and holds what an earlier one holds. -/
def GrowsFrom (start : Catalog) (present : Workspace) : Prop :=
  present.foreign.Sorted ∧ start.Grows present.foreign

theorem addForeign_catalog {id : String} {record : Record}
    (ran : (Step.addForeign id).Yields before record after) :
    (before.foreign.find? id = some record ∧ after = before) ∨
    (before.foreign.find? id = none ∧ after.foreign = before.foreign.put (.ofId id)) := by
  obtain ⟨catalog, disk, added, result⟩ := Step.yields_addForeign.1 ran
  rw [result]
  rcases Catalog.add_ok added with ⟨found, same, sameDisk⟩ | ⟨missing, _, same, _⟩
  · rw [same, sameDisk]
    exact Or.inl ⟨found, rfl⟩
  · exact Or.inr ⟨missing, same⟩

theorem updateForeign_catalog {id : String} {change : Record → Record} {record : Record}
    (ran : (Step.updateForeign id change).Yields before record after) :
    ∃ old, before.foreign.find? id = some old ∧ record = { change old with id := old.id } ∧
      record.id = id ∧ after.foreign = before.foreign.put record := by
  obtain ⟨catalog, disk, updated, result⟩ := Step.yields_updateForeign.1 ran
  obtain ⟨old, found, changed, sameId, same, _⟩ := Catalog.update_ok updated
  rw [result]
  exact ⟨old, found, changed, sameId, same⟩

theorem updateForeign_find? {id : String} {change : Record → Record} {record : Record}
    (ran : (Step.updateForeign id change).Yields before record after) :
    after.foreign.find? id = some record := by
  obtain ⟨_, _, _, sameId, same⟩ := updateForeign_catalog ran
  rw [same, ← sameId]
  exact Catalog.find?_put_same before.foreign record

/-- Every operation of a build lets its catalog grow. -/
theorem growsFrom_invariant (remote : Remote) (start : Catalog) :
    Invariant remote (GrowsFrom start) where
  add id := by
    intro before record after ⟨sorted, grows⟩ ran
    rcases addForeign_catalog ran with ⟨_, same⟩ | ⟨missing, same⟩
    · rw [same]
      exact ⟨sorted, grows⟩
    · unfold GrowsFrom
      rw [same]
      refine ⟨Catalog.sorted_put sorted, grows.trans (Catalog.grows_put fun old found => ?_)⟩
      have wrong : before.foreign.find? id = some old := found
      rw [missing] at wrong
      exact absurd wrong (by simp)
  update id change made := by
    intro before record after ⟨sorted, grows⟩ ran
    obtain ⟨old, found, changed, sameId, same⟩ := updateForeign_catalog ran
    unfold GrowsFrom
    rw [same]
    refine ⟨Catalog.sorted_put sorted, grows.trans (Catalog.grows_put fun other foundOther => ?_)⟩
    rw [sameId, found] at foundOther
    rw [← Option.some.inj foundOther, changed]
    exact made.within old
  addExternal id := by
    intro before record after here ran
    obtain ⟨catalog, disk, _, result⟩ := Step.yields_addExternal.1 ran
    rw [result]
    exact here
  updateExternal id change := by
    intro before record after here ran
    obtain ⟨catalog, disk, _, result⟩ := Step.yields_updateExternal.1 ran
    rw [result]
    exact here
  write path text := by
    intro before value after here ran
    obtain ⟨disk, _, result⟩ := Step.yields_write.1 ran
    rw [result]
    exact here
  fetch name := by
    intro before value after here ran
    obtain ⟨disk, _, result⟩ := Step.yields_fetch.1 ran
    rw [result]
    exact here
  parse id text := by
    intro before value after here ran
    rw [(Step.yields_parse.1 ran).2]
    exact here
  table := by
    intro before value after here ran
    obtain ⟨slot, journal, result, _⟩ := Step.table_frame ran
    rw [result]
    exact here

/-! ## What a stage made -/

/-- An object has a record with a mark. -/
def Marked (mark : Record → Bool) (catalog : Catalog) (id : String) : Prop :=
  ∃ record, catalog.find? id = some record ∧ mark record = true

theorem Marked.later {mark : Record → Bool} {id : String} {catalog later : Catalog}
    (lasting : ∀ {old new : Record}, old.Within new → mark old = true → mark new = true)
    (grows : catalog.Grows later) (marked : Marked mark catalog id) : Marked mark later id := by
  obtain ⟨record, found, holds⟩ := marked
  obtain ⟨new, foundNew, within⟩ := grows id record found
  exact ⟨new, foundNew, lasting within holds⟩

theorem parseObject_marks {id : String} {place : Path}
    (ran : (parseObject settings remote id).Yields before place after) :
    Marked (fun record => record.xmir.isSome) after.foreign id := by
  obtain ⟨_, _, _, _, _, _, _, record, _, _, _, _, _, updated⟩ := yields_parseObject.1 ran
  obtain ⟨_, _, changed, _⟩ := updateForeign_catalog updated
  exact ⟨record, updateForeign_find? updated, by rw [changed]; rfl⟩

theorem parseEach_marks {ids : List String} (sorted : before.foreign.Sorted)
    (ran : (parseEach settings remote ids).Yields before () after) :
    ∀ id ∈ ids, Marked (fun record => record.xmir.isSome) after.foreign id := by
  induction ids generalizing before with
  | nil => simp
  | cons first rest inductionHypothesis =>
    obtain ⟨place, between, ranFirst, ranRest⟩ := Step.yields_bind.1 ran
    have growing := growsFrom_invariant remote
    have sortedBetween := (growing before.foreign).upkeep.parseObject first before place between
      ⟨sorted, .refl _⟩ ranFirst
    have grown := (growing between.foreign).upkeep.parseEach rest between () after
      ⟨sortedBetween.1, .refl _⟩ ranRest
    intro id member
    rcases List.mem_cons.1 member with here | later
    · rw [here]
      exact (parseObject_marks ranFirst).later Record.Within.xmir grown.2
    · exact inductionHypothesis sortedBetween.1 ranRest id later

theorem recordOptimized_marks (remote : Remote) {done : List (String × Path)}
    (sorted : before.foreign.Sorted) (ran : (recordOptimized done).Yields before () after) :
    ∀ item ∈ done, Marked (fun record => record.optimized.isSome) after.foreign item.1 := by
  induction done generalizing before with
  | nil => simp
  | cons first rest inductionHypothesis =>
    obtain ⟨record, between, ranFirst, ranRest⟩ := Step.yields_bind.1 ran
    have growing := growsFrom_invariant remote
    have sortedBetween := (growing before.foreign).update first.1 _ (.optimized first.2) before
      record between ⟨sorted, .refl _⟩ ranFirst
    have grown := (growing between.foreign).upkeep.recordOptimized rest between () after
      ⟨sortedBetween.1, .refl _⟩ ranRest
    obtain ⟨_, _, changed, _⟩ := updateForeign_catalog ranFirst
    have marked : Marked (fun record => record.optimized.isSome) between.foreign first.1 :=
      ⟨record, updateForeign_find? ranFirst, by rw [changed]; rfl⟩
    intro item member
    rcases List.mem_cons.1 member with here | later
    · rw [here]
      exact marked.later Record.Within.optimized grown.2
    · exact inductionHypothesis sortedBetween.1 ranRest item later

theorem optimizeEach_ids {target : Path} {pending done : List (String × Path)}
    (ran : (optimizeEach target pending).Yields before done after) :
    done.map Prod.fst = pending.map Prod.fst := by
  induction pending generalizing before done with
  | nil =>
    rw [← (Step.yields_pure.1 ran).1]
  | cons first rest inductionHypothesis =>
    obtain ⟨place, between, _, ranRest⟩ := Step.yields_bind.1 ran
    obtain ⟨others, last, ranOthers, result⟩ := Step.yields_bind.1 ranRest
    rw [(Step.yields_pure.1 result).2] at ranOthers
    rw [← (Step.yields_pure.1 result).1, List.map_cons, List.map_cons, inductionHypothesis ranOthers]

theorem discoverObject_marks {record : Record} {added : Nat} (some_ : record.optimized.isSome = true)
    (ran : (discoverObject record).Yields before added after) :
    Marked (fun record => record.discovered.isSome) after.foreign record.id := by
  obtain ⟨optimized, isOptimized⟩ := Option.isSome_iff_exists.1 some_
  obtain ⟨_, _, found, _, _, updated⟩ := (yields_discoverObject isOptimized).1 ran
  obtain ⟨_, _, changed, _⟩ := updateForeign_catalog updated
  exact ⟨found, updateForeign_find? updated, by rw [changed]; rfl⟩

theorem discoverEach_marks (remote : Remote) {records : List Record} {added : Nat}
    (sorted : before.foreign.Sorted) (ran : (discoverEach records).Yields before added after) :
    ∀ record ∈ records, record.optimized.isSome = true →
      Marked (fun record => record.discovered.isSome) after.foreign record.id := by
  induction records generalizing before added with
  | nil => simp
  | cons first rest inductionHypothesis =>
    obtain ⟨count, between, others, ranFirst, ranOthers, _⟩ := yields_discoverEach_cons.1 ran
    have growing := growsFrom_invariant remote
    have sortedBetween := (growing before.foreign).upkeep.discoverObject first before count between
      ⟨sorted, .refl _⟩ ranFirst
    have grown := (growing between.foreign).upkeep.discoverEach rest between others after
      ⟨sortedBetween.1, .refl _⟩ ranOthers
    intro record member some_
    rcases List.mem_cons.1 member with here | later
    · rw [here] at some_ ⊢
      exact (discoverObject_marks some_ ranFirst).later Record.Within.discovered grown.2
    · exact inductionHypothesis sortedBetween.1 ranOthers record later some_

/-! ## The last cycle -/

/-- A stage whose marks were there before had nothing to mark. -/
theorem not_pending {mark : Record → Bool} {catalog later : Catalog} {record : Record}
    (lasting : ∀ {old new : Record}, old.Within new → mark old = true → mark new = true)
    (sorted : catalog.Sorted) (member : record ∈ catalog.records)
    (back : later.Grows catalog) (marked : Marked mark later record.id) : mark record = true := by
  obtain ⟨twin, found, holds⟩ := marked.later lasting back
  rw [Catalog.find?_of_mem sorted member] at found
  rw [Option.some.inj found]
  exact holds

theorem parseAll_idle {count : Nat} (sorted : before.foreign.Sorted)
    (back : after.foreign.Grows before.foreign)
    (ran : (parseAll settings remote).Yields before count after) :
    unparsed before.foreign = [] ∧ after = before := by
  have ranEach := (yields_parseAll.1 ran).2
  have marks := parseEach_marks sorted ranEach
  have nothing : unparsed before.foreign = [] := by
    rw [List.eq_nil_iff_forall_not_mem]
    intro id member
    have marked := marks id member
    obtain ⟨record, among, same⟩ := List.mem_map.1 member
    obtain ⟨recorded, awaits⟩ := List.mem_filter.1 among
    rw [← same] at marked
    have parsed := not_pending Record.Within.xmir sorted recorded back marked
    unfold awaitsParse at awaits
    rw [Bool.and_eq_true, Option.isNone_iff_eq_none] at awaits
    rw [awaits.2] at parsed
    exact absurd parsed (by simp)
  rw [nothing] at ranEach
  exact ⟨nothing, (Step.yields_pure.1 ranEach).2.symm⟩

theorem optimizeAll_idle (remote : Remote) {target : Path} {count : Nat}
    (sorted : before.foreign.Sorted) (back : after.foreign.Grows before.foreign)
    (ran : (optimizeAll target).Yields before count after) :
    unoptimized before.foreign = [] ∧ after = before := by
  obtain ⟨done, between, ranEach, recorded, _⟩ := yields_optimizeAll.1 ran
  have sortedBetween := ((growsFrom_invariant remote before.foreign).upkeep.optimizeEach target _ before
    done between ⟨sorted, .refl _⟩ ranEach).1
  have marks := recordOptimized_marks remote sortedBetween recorded
  have sameIds := optimizeEach_ids ranEach
  have nothing : unoptimized before.foreign = [] := by
    rw [List.eq_nil_iff_forall_not_mem]
    intro item member
    have inDone : item.1 ∈ done.map Prod.fst := by
      rw [sameIds]
      exact List.mem_map_of_mem member
    obtain ⟨made, among, sameId⟩ := List.mem_map.1 inDone
    have marked := marks made among
    obtain ⟨record, inRecords, awaits⟩ := List.mem_filterMap.1 member
    unfold awaitsOptimize at awaits
    split at awaits
    · next waits =>
      obtain ⟨xmir, _, same⟩ := Option.map_eq_some_iff.1 awaits
      rw [sameId, ← same] at marked
      have optimized := not_pending Record.Within.optimized sorted inRecords back marked
      rw [Option.isNone_iff_eq_none] at waits
      rw [waits] at optimized
      exact absurd optimized (by simp)
    · exact absurd awaits (by simp)
  rw [nothing] at ranEach
  obtain ⟨empty, same⟩ := Step.yields_pure.1 ranEach
  rw [← empty] at recorded
  exact ⟨nothing, by rw [← (Step.yields_pure.1 recorded).2, same]⟩

theorem discoverEach_idle {records : List Record} {added : Nat}
    (none : ∀ record ∈ records, record.optimized = none)
    (ran : (discoverEach records).Yields before added after) : after = before := by
  induction records generalizing added with
  | nil => exact (Step.yields_pure.1 ran).2.symm
  | cons first rest inductionHypothesis =>
    obtain ⟨_, _, _, ranFirst, ranRest, _⟩ := yields_discoverEach_cons.1 ran
    rw [discoverObject_of_none (none first List.mem_cons_self)] at ranFirst
    obtain ⟨_, rfl⟩ := Step.yields_pure.1 ranFirst
    exact inductionHypothesis (fun record member => none record (List.mem_cons_of_mem _ member))
      ranRest

theorem discoverAll_idle (remote : Remote) {count : Nat} (sorted : before.foreign.Sorted)
    (back : after.foreign.Grows before.foreign)
    (ran : discoverAll.Yields before count after) :
    (∀ record ∈ before.foreign.notDiscovered, record.optimized = none) ∧ after = before := by
  have ranEach := yields_discoverAll.1 ran
  have marks := discoverEach_marks remote sorted ranEach
  have nothing : ∀ record ∈ before.foreign.notDiscovered, record.optimized = none := by
    intro record member
    cases isOptimized : record.optimized with
    | none => rfl
    | some optimized =>
      have marked := marks record member (by rw [isOptimized]; rfl)
      obtain ⟨inRecords, waits⟩ := List.mem_filter.1 member
      have discovered := not_pending Record.Within.discovered sorted inRecords back marked
      rw [Option.isNone_iff_eq_none] at waits
      rw [waits] at discovered
      exact absurd discovered (by simp)
  exact ⟨nothing, discoverEach_idle nothing ranEach⟩

/-- What every stage but the last one finished. -/
def Finished (record : Record) : Prop :=
  (record.source.isSome = true → record.xmir.isSome = true) ∧
  (record.xmir.isSome = true → record.optimized.isSome = true) ∧
  (record.optimized.isSome = true → record.discovered.isSome = true)

/-- A cycle that leaves the state of every object found nothing to do but to pull. -/
theorem cycle_idle {fetched : Nat} (sorted : before.foreign.Sorted)
    (same : before.foreign.state = after.foreign.state)
    (ran : (cycle settings remote).Yields before fetched after) :
    (∀ record ∈ before.foreign.records, Finished record) ∧
      (pullAll settings remote).Yields before fetched after := by
  obtain ⟨_, parsed, _, optimized, _, discovered, ranParse, ranOptimize, ranDiscover, ranPull⟩ :=
    yields_cycle.1 ran
  have growing := growsFrom_invariant remote
  have atParsed := (growing before.foreign).upkeep.parseAll before _ parsed ⟨sorted, .refl _⟩ ranParse
  have atOptimized := (growing parsed.foreign).upkeep.optimizeAll settings.target parsed _ optimized
    ⟨atParsed.1, .refl _⟩ ranOptimize
  have atDiscovered := (growing optimized.foreign).upkeep.discoverAll optimized _ discovered
    ⟨atOptimized.1, .refl _⟩ ranDiscover
  have atEnd := ((growing discovered.foreign).supply settings).pullAll discovered _ after
    ⟨atDiscovered.1, .refl _⟩ ranPull
  have back : after.foreign.Grows before.foreign := Catalog.grows_of_state same.symm
  have fromDiscovered := atEnd.2.trans back
  have fromOptimized := atDiscovered.2.trans fromDiscovered
  have fromParsed := atOptimized.2.trans fromOptimized
  obtain ⟨noSource, sameParsed⟩ := parseAll_idle sorted fromParsed ranParse
  rw [sameParsed] at ranOptimize
  obtain ⟨noDocument, sameOptimized⟩ := optimizeAll_idle remote sorted fromOptimized ranOptimize
  rw [sameOptimized] at ranDiscover
  obtain ⟨noMarker, sameDiscovered⟩ := discoverAll_idle remote sorted fromDiscovered ranDiscover
  rw [sameDiscovered] at ranPull
  refine ⟨fun record member => ⟨fun source => ?_, fun xmir => ?_, fun optimized => ?_⟩, ranPull⟩
  · cases isParsed : record.xmir with
    | some xmir => rfl
    | none =>
      have waits : record.id ∈ unparsed before.foreign :=
        List.mem_map_of_mem (List.mem_filter.2 ⟨member, by simp [awaitsParse, source, isParsed]⟩)
      rw [noSource] at waits
      exact absurd waits (by simp)
  · cases isOptimized : record.optimized with
    | some optimized => rfl
    | none =>
      obtain ⟨place, isParsed⟩ := Option.isSome_iff_exists.1 xmir
      have waits : (record.id, place) ∈ unoptimized before.foreign :=
        List.mem_filterMap.2 ⟨record, member, by simp [awaitsOptimize, isOptimized, isParsed]⟩
      rw [noDocument] at waits
      exact absurd waits (by simp)
  · cases isDiscovered : record.discovered with
    | some count => rfl
    | none =>
      have waits : record ∈ before.foreign.notDiscovered :=
        List.mem_filter.2 ⟨member, by simp [isDiscovered]⟩
      rw [noMarker record waits] at optimized
      exact absurd optimized (by simp)

/-- The cycles of a settled build end with one that left the state of every object, and what
cycles keep holds where that one starts. -/
theorem settle_end {holds : Workspace → Prop} (keeps : (cycle settings remote).Keeps holds)
    {bound : Nat} {answer : Nat × Nat} (here : holds before)
    (ran : (settle settings remote bound).Yields before answer after) :
    ∃ last fetched, holds last ∧ (cycle settings remote).Yields last fetched after ∧
      last.foreign.state = after.foreign.state := by
  induction bound generalizing before answer with
  | zero => exact absurd ran Step.yields_fail
  | succ left inductionHypothesis =>
    obtain ⟨fetched, between, ranCycle, rest⟩ := yields_settle.1 ran
    rcases rest with ⟨same, _, atEnd⟩ | ⟨_, others, ranRest, _⟩
    · rw [atEnd] at ranCycle same
      exact ⟨before, fetched, here, ranCycle, same⟩
    · exact inductionHypothesis (keeps before fetched between here ranCycle) ranRest

theorem settle_last {sought : String → Prop} {holds : Workspace → Prop}
    (supply : Supply settings remote sought holds) {bound : Nat} {answer : Nat × Nat}
    (here : holds before)
    (ran : (settle settings remote bound).Yields before answer after) :
    ∃ last fetched, holds last ∧ (cycle settings remote).Yields last fetched after ∧
      last.foreign.state = after.foreign.state :=
  settle_end supply.cycle here ran

end Build

end EoAssembly
