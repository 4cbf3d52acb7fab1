import EoAssembly.Build.Pulled
import EoAssembly.Proofs.Build.Successive
import EoAssembly.Proofs.Catalog.Written
import Mathlib.Data.List.Find

/-!
Contract: what looking through documents makes of a catalog.

The catalog that discovering leaves is told by the records that wait and by the names that their
documents refer to.  A record that is looked through counts its names, and a name is seen in the
first document that refers to it.  Looking through some records and then through others is the same
as looking through all of them.

Owns `waiting`, `afterScan` and `told`, and what one record and a list of records come to.

Does not own: the law of discovering as a whole.
-/

namespace EoAssembly

namespace Build

open Catalog (Prepared Written groundOf)

/-! ## Records after a scan -/

/-- The records with an optimized document that were not looked through, by their ids. -/
def waiting (catalog : Catalog) : List Record :=
  catalog.notDiscovered.filter fun record => record.optimized.isSome

section Told

variable (refers : Record → List String) (records : List Record)

/-- The first of the records whose document refers to a name. -/
def firstWith (id : String) : Option Record := records.find? fun record => (refers record).contains id

/-- The record of an object once these records were looked through: what was seen for the first
time is seen in the first document, and what was looked through has the marker. -/
def afterScan (id : String) (old : Record) : Record :=
  { old with
    discoveredAt := old.discoveredAt.or ((firstWith refers records id).bind Record.optimized)
    discovered := match Ordered.find? Record.id id records with
      | some record => some (refers record).length
      | none => old.discovered
    status := match Ordered.find? Record.id id records with
      | some _ => some Status.discovered
      | none => old.status }

/-- The record under an id once these records were looked through, if there is one then. -/
def told (find : String → Option Record) (id : String) : Option Record :=
  ((find id).or (if (firstWith refers records id).isSome then some (.ofId id) else none)).map
    (afterScan refers records id)

end Told

section Laws

variable {refers : Record → List String} {first rest : List Record} {find : String → Option Record}

theorem told_nil : told refers [] find = find := by
  funext id
  have unchanged : afterScan refers [] id = fun old => old := by
    funext old
    simp [afterScan, firstWith, Ordered.find?]
  unfold told
  rw [unchanged]
  simp [firstWith]

theorem firstWith_append (id : String) :
    firstWith refers (first ++ rest) id = (firstWith refers first id).or (firstWith refers rest id) :=
  List.find?_append

theorem afterScan_append (some_ : ∀ record ∈ first, record.optimized.isSome = true)
    (apart : ∀ record ∈ first, ∀ other ∈ rest, record.id ≠ other.id) (id : String) (old : Record) :
    afterScan refers (first ++ rest) id old =
      afterScan refers rest id (afterScan refers first id old) := by
  have seen : (firstWith refers (first ++ rest) id).bind Record.optimized =
      ((firstWith refers first id).bind Record.optimized).or
        ((firstWith refers rest id).bind Record.optimized) := by
    rw [firstWith_append]
    cases found : firstWith refers first id with
    | none => simp
    | some record =>
      obtain ⟨document, isOptimized⟩ :=
        Option.isSome_iff_exists.1 (some_ record (List.mem_of_find?_eq_some found))
      simp [isOptimized]
  have looked : Ordered.find? Record.id id (first ++ rest) =
      (Ordered.find? Record.id id first).or (Ordered.find? Record.id id rest) :=
    List.find?_append
  unfold afterScan
  rw [seen, looked]
  simp only [Option.or_assoc]
  cases inFirst : Ordered.find? Record.id id first with
  | none => rfl
  | some record =>
    cases inRest : Ordered.find? Record.id id rest with
    | none => rfl
    | some other =>
      obtain ⟨isId, member⟩ := Ordered.key_of_find? inFirst
      obtain ⟨isIdOther, memberOther⟩ := Ordered.key_of_find? inRest
      exact absurd (isId.trans isIdOther.symm) (apart record member other memberOther)

/-- Looking through some records and then through others is looking through all of them. -/
theorem told_append (some_ : ∀ record ∈ first, record.optimized.isSome = true)
    (apart : ∀ record ∈ first, ∀ other ∈ rest, record.id ≠ other.id)
    (known : ∀ record ∈ first, (find record.id).isSome = true) :
    told refers (first ++ rest) find = told refers rest (told refers first find) := by
  funext id
  have both : ∀ old, afterScan refers (first ++ rest) id old =
      afterScan refers rest id (afterScan refers first id old) := afterScan_append some_ apart id
  unfold told
  rw [firstWith_append]
  cases found : find id with
  | some old => simp [both]
  | none =>
    cases inFirst : firstWith refers first id with
    | some record => simp [both]
    | none =>
      have unlooked : Ordered.find? Record.id id first = none := by
        cases looked : Ordered.find? Record.id id first with
        | none => rfl
        | some record =>
          obtain ⟨isId, member⟩ := Ordered.key_of_find? looked
          have there := known record member
          rw [isId, found] at there
          exact absurd there (by simp)
      have unchanged : afterScan refers first id (.ofId id) = .ofId id := by
        simp [afterScan, inFirst, unlooked]
      cases inRest : firstWith refers rest id with
      | none => simp
      | some record => simp [both, unchanged]

end Laws

/-! ## Steps of a scan -/

section Steps

variable {before between after : Workspace} {added more : Nat} {document : Path} {name : String}

/-- A workspace with a tree of files and an open catalog, whose path is written as a text. -/
structure Intact (present : Workspace) : Prop where
  sorted : present.foreign.Sorted
  sound : present.disk.Sound
  isText : present.foreign.path.IsText

/-- Objects were added to the catalog, and nothing but the catalog and its file changed. -/
structure Enlarged (before : Workspace) (added : Nat) (after : Workspace) : Prop where
  frame : after = { before with foreign := after.foreign, disk := after.disk }
  path : after.foreign.path = before.foreign.path
  sorted : after.foreign.Sorted
  size : after.foreign.size = before.foreign.size + added
  disk : Catalog.Settles before.foreign.path before.disk after.disk

theorem Enlarged.refl (intact : Intact before) : Enlarged before 0 before :=
  ⟨rfl, rfl, intact.sorted, rfl, .refl _ _⟩

theorem Enlarged.intact (enlarged : Enlarged before added after) (intact : Intact before) :
    Intact after where
  sorted := enlarged.sorted
  sound := enlarged.disk.sound intact.sound
  isText := by
    rw [enlarged.path]
    exact intact.isText

theorem Enlarged.trans (first : Enlarged before added between)
    (second : Enlarged between more after) : Enlarged before (added + more) after where
  frame := by
    rw [second.frame, first.frame]
  path := second.path.trans first.path
  sorted := second.sorted
  size := by
    rw [second.size, first.size, Nat.add_assoc]
  disk := by
    have again := second.disk
    rw [first.path] at again
    exact first.disk.trans again

/-- An object that was missing is added. -/
theorem enlarged_add {record : Record} (intact : Intact before)
    (ran : (Step.addForeign name).Yields before record after)
    (missing : before.foreign.find? name = none) :
    Enlarged before 1 after ∧ after.foreign = before.foreign.put (.ofId name) := by
  obtain ⟨catalog, disk, addedTo, result⟩ := Step.yields_addForeign.1 ran
  rcases Catalog.add_ok addedTo with ⟨found, _⟩ | ⟨_, _, same, persisted⟩
  · rw [missing] at found
    exact absurd found (by simp)
  · rw [same] at persisted
    rw [result, same]
    refine ⟨⟨rfl, rfl, Catalog.sorted_put intact.sorted, ?_, ?_⟩, rfl⟩
    · exact Ordered.length_put_missing missing
    · have isText : (before.foreign.put (.ofId name)).path.IsText := intact.isText
      have settles := Catalog.settles_persist intact.sound isText persisted
      exact settles

/-- The record of an object that is there is changed. -/
theorem enlarged_update {record : Record} {change : Record → Record} (intact : Intact before)
    (ran : (Step.updateForeign name change).Yields before record after) :
    Enlarged before 0 after ∧ ∃ old, before.foreign.find? name = some old ∧
      after.foreign = before.foreign.put { change old with id := name } := by
  obtain ⟨catalog, disk, updated, result⟩ := Step.yields_updateForeign.1 ran
  obtain ⟨old, found, isRecord, isId, same, written⟩ := Catalog.update_ok updated
  have sameId := Catalog.id_of_find? found
  rw [sameId] at isRecord
  have settles : Catalog.Settles before.foreign.path before.disk disk := by
    rcases written with unwritten | persisted
    · rw [unwritten]
      exact .refl _ _
    · rw [same] at persisted
      have isText : (before.foreign.put record).path.IsText := intact.isText
      have settles := Catalog.settles_persist intact.sound isText persisted
      exact settles
  rw [result, same, isRecord]
  refine ⟨⟨rfl, rfl, Catalog.sorted_put intact.sorted, ?_, settles⟩, old, found, rfl⟩
  exact Ordered.length_put_found intact.sorted found

/-- The records once names were seen in a document. -/
def seenIn (document : Path) (names : List String) (find : String → Option Record) (id : String) :
    Option Record :=
  if id ∈ names then some (asSeenIn document ((find id).getD (.ofId id))) else find id

theorem discoverName_seen (intact : Intact before)
    (ran : (discoverName document name).Yields before added after) :
    Enlarged before added after ∧
      after.foreign.find? = seenIn document [name] before.foreign.find? := by
  rcases yields_discoverName.1 ran with ⟨_, rfl, _, ranUpdate⟩ |
    ⟨unknown, rfl, _, middle, _, ranAdd, ranUpdate⟩
  · obtain ⟨one, old, found, sameOne⟩ := enlarged_update intact ranUpdate
    have sameId := Catalog.id_of_find? found
    refine ⟨one, ?_⟩
    funext id
    rw [sameOne, Catalog.find?_put_eq]
    unfold seenIn
    by_cases same : id = name
    · simp [same, found, asSeenIn, sameId]
    · simp [same]
  · have missing : before.foreign.find? name = none := by
      simpa [Catalog.contains] using unknown
    obtain ⟨one, sameOne⟩ := enlarged_add intact ranAdd missing
    obtain ⟨two, old, found, sameTwo⟩ := enlarged_update (one.intact intact) ranUpdate
    have isFresh : old = .ofId name := by
      rw [sameOne, Catalog.find?_put_eq, if_pos (show name = (Record.ofId name).id from rfl)] at found
      exact (Option.some.inj found).symm
    refine ⟨one.trans two, ?_⟩
    funext id
    rw [sameTwo, sameOne, Catalog.find?_put_eq, Catalog.find?_put_eq]
    unfold seenIn
    by_cases same : id = name
    · simp [same, isFresh, missing, asSeenIn, Record.ofId]
    · simp [same, Record.ofId]

theorem seenIn_nil (find : String → Option Record) : seenIn document [] find = find := by
  funext id
  simp [seenIn]

theorem seenIn_cons (names : List String) (find : String → Option Record) :
    seenIn document (name :: names) find =
      seenIn document names (seenIn document [name] find) := by
  funext id
  unfold seenIn
  by_cases here : id = name
  · by_cases later : name ∈ names
    · simp [here, later, asSeenIn]
    · simp [here, later]
  · by_cases later : id ∈ names
    · simp [here, later]
    · simp [here, later]

theorem discoverNames_seen {names : List String} (intact : Intact before)
    (ran : (discoverNames document names).Yields before added after) :
    Enlarged before added after ∧
      after.foreign.find? = seenIn document names before.foreign.find? := by
  induction names generalizing before added with
  | nil =>
    obtain ⟨rfl, rfl⟩ := Step.yields_pure.1 ran
    exact ⟨.refl intact, (seenIn_nil _).symm⟩
  | cons name rest inductionHypothesis =>
    obtain ⟨_, between, _, ranFirst, ranRest, rfl⟩ := yields_discoverNames_cons.1 ran
    obtain ⟨one, sameOne⟩ := discoverName_seen intact ranFirst
    obtain ⟨others, sameOthers⟩ := inductionHypothesis (one.intact intact) ranRest
    refine ⟨one.trans others, ?_⟩
    rw [sameOthers, sameOne, ← seenIn_cons]

/-- What is looked through is told by the names that its document refers to. -/
theorem told_single {refers : Record → List String} {record : Record} {catalog : Catalog}
    {old : Record} (isOptimized : record.optimized = some document)
    (there : seenIn document (refers record) catalog.find? record.id = some old) (id : String) :
    told refers [record] catalog.find? id =
      if id = record.id then some { asDiscovered (refers record).length old with id := record.id }
      else seenIn document (refers record) catalog.find? id := by
  have first : firstWith refers [record] id = if id ∈ refers record then some record else none := by
    unfold firstWith
    by_cases refersTo : id ∈ refers record
    · simp [refersTo]
    · simp [refersTo]
  have looked : Ordered.find? Record.id id [record] = if id = record.id then some record else none := by
    unfold Ordered.find?
    by_cases same : id = record.id
    · simp [same]
    · simp [same, Ne.symm same]
  unfold told afterScan
  rw [first, looked]
  unfold seenIn at there ⊢
  by_cases same : id = record.id
  · rw [same]
    by_cases refersTo : record.id ∈ refers record
    · simp only [refersTo, if_true, Option.some.injEq] at there ⊢
      rw [← there]
      cases found : catalog.find? record.id with
      | none => simp [asDiscovered, asSeenIn, isOptimized, Record.ofId]
      | some known =>
        have sameId := Catalog.id_of_find? found
        cases seen : known.discoveredAt <;>
          simp [asDiscovered, asSeenIn, isOptimized, sameId, seen]
    · simp only [refersTo, if_false] at there ⊢
      have sameId := Catalog.id_of_find? there
      simp [there, asDiscovered, sameId]
  · by_cases refersTo : id ∈ refers record
    · cases found : catalog.find? id with
      | none => simp [same, refersTo, asSeenIn, isOptimized, Record.ofId]
      | some known =>
        cases seen : known.discoveredAt <;>
          simp [same, refersTo, asSeenIn, isOptimized, seen]
    · simp [same, refersTo]

theorem discoverObject_told {record : Record} (intact : Intact before)
    (isOptimized : record.optimized = some document)
    (ran : (discoverObject record).Yields before added after) :
    ∃ names, namesIn before.disk document = .ok names ∧ Enlarged before added after ∧
      ∀ refers : Record → List String, refers record = names →
        after.foreign.find? = told refers [record] before.foreign.find? := by
  obtain ⟨names, between, _, reads, ranNames, ranUpdate⟩ :=
    (yields_discoverObject isOptimized).1 ran
  obtain ⟨one, sameOne⟩ := discoverNames_seen intact ranNames
  obtain ⟨two, old, found, sameTwo⟩ := enlarged_update (one.intact intact) ranUpdate
  refine ⟨names, reads, one.trans two, fun refers isNames => ?_⟩
  funext id
  rw [sameOne] at found
  rw [← isNames] at found sameOne sameTwo
  rw [sameTwo, Catalog.find?_put_eq, sameOne, told_single isOptimized found id]

/-! ## A whole scan -/

/-- A document that is read while a catalog is written could be read before, as soon as the
directory of the catalog was there. -/
theorem namesIn_settles {path : Path} {start disk : Disk} {names : List String}
    (sound : start.Sound) (settles : Catalog.Settles path start disk)
    (reads : namesIn disk document = .ok names) :
    namesIn (groundOf path start) document = .ok names := by
  obtain ⟨text, found, stands, isDocument, same⟩ := namesIn_ok.1 reads
  rcases settles with here | ⟨_, written⟩
  · rw [here] at stands
    exact namesIn_ok.2 ⟨text, found, Catalog.entry?_groundOf sound stands, isDocument, same⟩
  · rw [written.entry? (written.beside stands isDocument)] at stands
    exact namesIn_ok.2 ⟨text, found, stands, isDocument, same⟩

theorem namesOfRecord_eq {disk : Disk} {record : Record} {names : List String}
    (isOptimized : record.optimized = some document) (reads : namesIn disk document = .ok names) :
    namesOfRecord disk record = names := by
  unfold namesOfRecord
  simp only [isOptimized, reads]

theorem told_congr {one other : Record → List String} {records : List Record}
    (same : ∀ record ∈ records, one record = other record) (find : String → Option Record) :
    told one records find = told other records find := by
  funext id
  have first : firstWith one records id = firstWith other records id := by
    unfold firstWith
    apply List.find?_congr
    intro record member
    rw [same record member]
  have counts : ∀ record, Ordered.find? Record.id id records = some record →
      one record = other record :=
    fun record found => same record (Ordered.key_of_find? found).2
  unfold told afterScan
  rw [first]
  cases found : Ordered.find? Record.id id records with
  | none => rfl
  | some record => simp only [counts record found]

/-- Records that may be looked through one after the other. -/
structure Pending (records : List Record) (catalog : Catalog) : Prop where
  optimized : ∀ record ∈ records, record.optimized.isSome = true
  ascending : Ordered.Ascending Record.id records
  known : ∀ record ∈ records, ∃ old, catalog.find? record.id = some old ∧ old.discovered = none

theorem Pending.split {first rest : List Record} {catalog : Catalog}
    (pending : Pending (first ++ rest) catalog) :
    Pending first catalog ∧ ∀ record ∈ first, ∀ other ∈ rest, record.id ≠ other.id := by
  obtain ⟨ascending, _, above⟩ := List.pairwise_append.1 pending.ascending
  refine ⟨⟨fun record member => pending.optimized record (List.mem_append_left rest member),
    ascending, fun record member => pending.known record (List.mem_append_left rest member)⟩, ?_⟩
  intro record member other among same
  have less := above record member other among
  rw [same] at less
  exact String.lt_irrefl _ less

/-- What is not looked through yet is still pending when the records before it were. -/
theorem Pending.rest {refers : Record → List String} {first rest : List Record}
    {catalog later : Catalog} (pending : Pending (first ++ rest) catalog)
    (same : later.find? = told refers first catalog.find?) : Pending rest later where
  optimized other member := pending.optimized other (List.mem_append_right first member)
  ascending := (List.pairwise_append.1 pending.ascending).2.1
  known other member := by
    obtain ⟨old, found, unmarked⟩ := pending.known other (List.mem_append_right first member)
    have unlooked : Ordered.find? Record.id other.id first = none := by
      cases looked : Ordered.find? Record.id other.id first with
      | none => rfl
      | some record =>
        obtain ⟨isId, among⟩ := Ordered.key_of_find? looked
        exact absurd isId (pending.split.2 record among other member)
    rw [same]
    unfold told
    rw [found]
    exact ⟨_, rfl, by simp [afterScan, unlooked, unmarked]⟩

theorem Pending.told_append {refers : Record → List String} {first rest : List Record}
    {catalog : Catalog} (pending : Pending (first ++ rest) catalog) :
    told refers (first ++ rest) catalog.find? =
      told refers rest (told refers first catalog.find?) := by
  obtain ⟨before, apart⟩ := pending.split
  apply Build.told_append before.optimized apart
  intro record member
  obtain ⟨old, found, _⟩ := before.known record member
  rw [found]
  rfl

/-- Looking through the first of the pending records leaves the others pending. -/
theorem Pending.looked {record : Record} {rest : List Record}
    (pending : Pending (record :: rest) before.foreign) (intact : Intact before)
    (ran : (discoverObject record).Yields before added after) :
    ∃ document names, record.optimized = some document ∧
      namesIn before.disk document = .ok names ∧ Enlarged before added after ∧
      Pending rest after.foreign ∧ ∀ refers : Record → List String, refers record = names →
        after.foreign.find? = told refers [record] before.foreign.find? := by
  obtain ⟨document, isOptimized⟩ :=
    Option.isSome_iff_exists.1 (pending.optimized record List.mem_cons_self)
  obtain ⟨names, reads, enlarged, effect⟩ := discoverObject_told intact isOptimized ran
  have both : Pending ([record] ++ rest) before.foreign := pending
  exact ⟨document, names, isOptimized, reads, enlarged,
    both.rest (effect (fun _ => names) rfl), effect⟩

theorem discoverEach_told {start : Disk} {records : List Record} (soundStart : start.Sound)
    (intact : Intact before) (settles : Catalog.Settles before.foreign.path start before.disk)
    (pending : Pending records before.foreign)
    (ran : (discoverEach records).Yields before added after) :
    Enlarged before added after ∧
      (∀ record ∈ records, ∀ document ∈ record.optimized,
        namesIn (groundOf before.foreign.path start) document =
          .ok (namesOfRecord (groundOf before.foreign.path start) record)) ∧
      after.foreign.find? =
        told (namesOfRecord (groundOf before.foreign.path start)) records before.foreign.find? := by
  induction records generalizing before added with
  | nil =>
    obtain ⟨rfl, rfl⟩ := Step.yields_pure.1 ran
    exact ⟨.refl intact, by simp, told_nil.symm⟩
  | cons record rest inductionHypothesis =>
    obtain ⟨_, between, _, ranFirst, ranRest, rfl⟩ := yields_discoverEach_cons.1 ran
    obtain ⟨document, names, isOptimized, reads, one, left, effect⟩ :=
      pending.looked intact ranFirst
    have readsGround := namesIn_settles soundStart settles reads
    have isNames := namesOfRecord_eq isOptimized readsGround
    have sameOne := effect _ isNames
    have settlesNext : Catalog.Settles between.foreign.path start between.disk := by
      rw [one.path]
      exact settles.trans one.disk
    obtain ⟨others, readsOthers, sameOthers⟩ :=
      inductionHypothesis (one.intact intact) settlesNext left ranRest
    rw [one.path] at readsOthers sameOthers
    refine ⟨one.trans others, ?_, ?_⟩
    · intro other member found isFound
      rcases List.mem_cons.1 member with here | behind
      · rw [here, Option.mem_def, isOptimized] at isFound
        rw [here, isNames, ← Option.some.inj isFound]
        exact readsGround
      · exact readsOthers other behind found isFound
    · have split : record :: rest = [record] ++ rest := rfl
      rw [split] at pending ⊢
      rw [sameOthers, sameOne, pending.told_append]

/-- What a scan finds, by names that agree with all that it reads. -/
theorem discoverEach_told_as {start : Disk} {records : List Record} {refers : Record → List String}
    (soundStart : start.Sound) (intact : Intact before)
    (settles : Catalog.Settles before.foreign.path start before.disk)
    (pending : Pending records before.foreign)
    (ran : (discoverEach records).Yields before added after)
    (agree : ∀ record ∈ records, ∀ document ∈ record.optimized, ∀ names,
      namesIn (groundOf before.foreign.path start) document = .ok names → names = refers record) :
    Enlarged before added after ∧
      after.foreign.find? = told refers records before.foreign.find? := by
  obtain ⟨larger, reads, same⟩ := discoverEach_told soundStart intact settles pending ran
  refine ⟨larger, same.trans (told_congr (fun record member => ?_) _)⟩
  obtain ⟨document, isOptimized⟩ :=
    Option.isSome_iff_exists.1 (pending.optimized record member)
  exact agree record member document isOptimized _ (reads record member document isOptimized)

/-! ## The records that wait -/

theorem mem_waiting {catalog : Catalog} {record : Record} : record ∈ waiting catalog ↔
    record ∈ catalog.records ∧ record.discovered = none ∧ record.optimized.isSome = true := by
  unfold waiting Catalog.notDiscovered
  rw [List.mem_filter, List.mem_filter, Option.isNone_iff_eq_none, and_assoc]

theorem pending_waiting {catalog : Catalog} (sorted : catalog.Sorted) :
    Pending (waiting catalog) catalog where
  optimized _ member := (mem_waiting.1 member).2.2
  ascending := (List.Pairwise.filter _ sorted).filter _
  known _ member :=
    ⟨_, Catalog.find?_of_mem sorted (mem_waiting.1 member).1, (mem_waiting.1 member).2.1⟩

/-- Records without an optimized document are passed over. -/
theorem perform_discoverEach (records : List Record) (present : Workspace) :
    (discoverEach records).perform present =
      (discoverEach (records.filter fun record => record.optimized.isSome)).perform present := by
  induction records generalizing present with
  | nil => rfl
  | cons record rest inductionHypothesis =>
    cases isOptimized : record.optimized with
    | none =>
      have skipped := discoverObject_of_none isOptimized
      simp only [List.filter_cons, isOptimized, Option.isSome_none, Bool.false_eq_true, if_false]
      rw [← inductionHypothesis]
      simp only [discoverEach, skipped, Step.perform_bind, Step.perform_pure, Nat.zero_add]
      cases (discoverEach rest).perform present with
      | mk outcome last => cases outcome <;> rfl
    | some document =>
      simp only [List.filter_cons, isOptimized, Option.isSome_some, if_true]
      simp only [discoverEach, Step.perform_bind, inductionHypothesis]

theorem perform_discoverAll (present : Workspace) :
    discoverAll.perform present = (discoverEach (waiting present.foreign)).perform present := by
  unfold discoverAll waiting
  rw [Step.perform_bind, ← perform_discoverEach]
  rfl

end Steps

end Build

end EoAssembly
