import EoAssembly.Proofs.Build.Scanned

/-!
Contract: what discovering makes of a catalog, and how far it comes.

A run that succeeds adds the names in the documents of the waiting objects, marks these objects and
leaves everything else alone.  A run that stops at a document it can't read has looked through the
documents before it, so the others are what waits then.  Where every document can be read and the
catalog be written, a run goes through.

Owns `Surveyed`, the tasks that are left, the stop of a scan at a document, and `Served`.

Does not own: going on behind a stop.
-/

namespace EoAssembly.Build

open Catalog (Prepared Written groundOf Settles)

/-- What discovering makes of a catalog, by the names that the waiting objects refer to. -/
structure Surveyed (refers : Record → List String) (before after : Catalog) : Prop where
  /-- The objects are those from before and the names in the documents of waiting objects. -/
  ids : ∀ id, after.contains id = true ↔
    before.contains id = true ∨ ∃ record ∈ waiting before, id ∈ refers record
  /-- A waiting object is marked with the number of names in its document. -/
  marked : ∀ record ∈ waiting before, ∃ now, after.find? record.id = some now ∧
    now.discovered = some (refers record).length ∧ now.status = some Status.discovered
  /-- A name that was seen nowhere before is seen in the document of the waiting object with the
  smallest id that refers to it. -/
  seen : ∀ id now, after.find? id = some now →
    (∀ old, before.find? id = some old → old.discoveredAt = none) →
    ((∀ record ∈ waiting before, id ∉ refers record) → now.discoveredAt = none) ∧
    ∀ record ∈ waiting before, id ∈ refers record →
      (∀ other ∈ waiting before, id ∈ refers other → record.id ≤ other.id) →
      now.discoveredAt = record.optimized
  /-- Nothing else of a record changes, and one that was seen stays seen where it was. -/
  kept : ∀ id old, before.find? id = some old → ∃ now, after.find? id = some now ∧
    now = { old with
      discoveredAt := now.discoveredAt, discovered := now.discovered, status := now.status } ∧
    (old ∉ waiting before → now.discovered = old.discovered ∧ now.status = old.status) ∧
    ∀ document, old.discoveredAt = some document → now.discoveredAt = some document
  /-- An object that is new has nothing but the document that it was seen in. -/
  fresh : ∀ id now, before.find? id = none → after.find? id = some now →
    now = { Record.ofId id with discoveredAt := now.discoveredAt }

section Law

variable {refers : Record → List String} {before after : Catalog}

theorem mem_of_firstWith {records : List Record} {id : String} {record : Record}
    (found : firstWith refers records id = some record) : record ∈ records ∧ id ∈ refers record :=
  ⟨List.mem_of_find?_eq_some found, by simpa using List.find?_some found⟩

theorem firstWith_none {records : List Record} {id : String} :
    firstWith refers records id = none ↔ ∀ record ∈ records, id ∉ refers record := by
  simp [firstWith]

/-- The first record that refers to a name is the one with the smallest id. -/
theorem firstWith_least {records : List Record} (ascending : Ordered.Ascending Record.id records)
    {id : String} {record : Record} (member : record ∈ records) (refersTo : id ∈ refers record)
    (least : ∀ other ∈ records, id ∈ refers other → record.id ≤ other.id) :
    firstWith refers records id = some record := by
  induction records with
  | nil => exact absurd member (by simp)
  | cons first rest inductionHypothesis =>
    obtain ⟨above, later⟩ := List.pairwise_cons.1 ascending
    unfold firstWith
    rw [List.find?_cons]
    rcases List.mem_cons.1 member with here | behind
    · simp [← here, refersTo]
    · have unmentioned : id ∉ refers first := by
        intro mentions
        exact String.not_lt.2 (least first List.mem_cons_self mentions) (above record behind)
      have apart : (refers first).contains id = false := by simpa using unmentioned
      rw [apart]
      exact inductionHypothesis later behind
        fun other among => least other (List.mem_cons_of_mem first among)

theorem told_of_known {records : List Record} {find : String → Option Record} {id : String}
    {old : Record} (found : find id = some old) :
    told refers records find id = some (afterScan refers records id old) := by
  unfold told
  rw [found]
  rfl

/-- An object that was unknown is known behind a scan when a document refers to it. -/
theorem told_of_unknown {records : List Record} {find : String → Option Record} {id : String}
    {now : Record} (missing : find id = none) :
    told refers records find id = some now ↔ (∃ record ∈ records, id ∈ refers record) ∧
      afterScan refers records id (.ofId id) = now := by
  unfold told
  rw [missing, Option.none_or]
  cases first : firstWith refers records id with
  | none =>
    have unmentioned := firstWith_none.1 first
    refine ⟨fun wrong => absurd wrong (by simp), fun here => ?_⟩
    obtain ⟨⟨record, member, refersTo⟩, _⟩ := here
    exact absurd refersTo (unmentioned record member)
  | some record => simpa using fun _ => ⟨record, mem_of_firstWith first⟩

/-- A name that was seen nowhere before is seen in the first document that refers to it. -/
theorem told_seen {records : List Record} {find : String → Option Record} {id : String}
    {now : Record} (found : told refers records find id = some now)
    (unseen : ∀ old, find id = some old → old.discoveredAt = none) :
    now.discoveredAt = (firstWith refers records id).bind Record.optimized := by
  cases there : find id with
  | none =>
    rw [← ((told_of_unknown there).1 found).2]
    rfl
  | some old =>
    rw [told_of_known there] at found
    rw [← Option.some.inj found]
    simp [afterScan, unseen old there]

/-! ## The waiting objects by their ids -/

theorem find?_waiting_eq_none {catalog : Catalog} (sorted : catalog.Sorted) {id : String}
    (apart : ∀ record, catalog.find? id = some record → record ∉ waiting catalog) :
    Ordered.find? Record.id id (waiting catalog) = none := by
  cases listed : Ordered.find? Record.id id (waiting catalog) with
  | none => rfl
  | some record =>
    obtain ⟨isId, member⟩ := Ordered.key_of_find? listed
    have known := Catalog.find?_of_mem sorted (mem_waiting.1 member).1
    rw [isId] at known
    exact absurd member (apart record known)

theorem find?_waiting {catalog : Catalog} (sorted : catalog.Sorted) (id : String) :
    Ordered.find? Record.id id (waiting catalog) =
      (catalog.find? id).filter fun record =>
        record.discovered.isNone && record.optimized.isSome := by
  have ascending := (pending_waiting sorted).ascending
  cases found : catalog.find? id with
  | none => exact find?_waiting_eq_none sorted fun record there => absurd there (by simp [found])
  | some record =>
    have isId := Catalog.id_of_find? found
    by_cases waits : record.discovered = none ∧ record.optimized.isSome = true
    · have member : record ∈ waiting catalog :=
        mem_waiting.2 ⟨Catalog.mem_of_find? found, waits⟩
      rw [← isId, Ordered.find?_of_mem ascending member]
      simp [Option.filter, waits]
    · rw [find?_waiting_eq_none sorted fun other there member => waits ?_]
      · have fails : (record.discovered.isNone && record.optimized.isSome) = false := by
          rw [Bool.eq_false_iff]
          simpa [Bool.and_eq_true] using waits
        simp [Option.filter, fails]
      · rw [Option.some.inj (found.symm.trans there)]
        exact (mem_waiting.1 member).2

theorem surveyed_of_told (sorted : before.Sorted)
    (same : after.find? = told refers (waiting before) before.find?) :
    Surveyed refers before after := by
  have ascending := (pending_waiting sorted).ascending
  constructor
  · intro id
    unfold Catalog.contains
    rw [same]
    cases found : before.find? id with
    | some old => simp [told_of_known found]
    | none => simp [Option.isSome_iff_exists, told_of_unknown found]
  · intro record member
    have known := Catalog.find?_of_mem sorted (mem_waiting.1 member).1
    have looked : Ordered.find? Record.id record.id (waiting before) = some record :=
      Ordered.find?_of_mem ascending member
    rw [same]
    exact ⟨_, told_of_known known, by simp [afterScan, looked]⟩
  · intro id now found unseen
    rw [same] at found
    rw [told_seen found unseen]
    constructor
    · intro unmentioned
      rw [firstWith_none.2 unmentioned]
      rfl
    · intro record member refersTo least
      rw [firstWith_least ascending member refersTo least]
      rfl
  · intro id old found
    rw [same]
    refine ⟨_, told_of_known found, rfl, fun apart => ?_, fun document seen => ?_⟩
    · have unlooked := find?_waiting_eq_none sorted fun other there => by
        rw [← Option.some.inj (found.symm.trans there)]
        exact apart
      simp [afterScan, unlooked]
    · simp [afterScan, seen]
  · intro id now missing found
    rw [same] at found
    have unlooked := find?_waiting_eq_none sorted fun old there => by
      rw [missing] at there
      exact absurd there (by simp)
    rw [← ((told_of_unknown missing).1 found).2]
    simp [afterScan, unlooked, Record.ofId]

/-! ## What is left to do -/

/-- What a scan reads of a record. -/
def task (record : Record) : String × Option Path := (record.id, record.optimized)

theorem find?_tasks (records : List Record) (id : String) :
    Ordered.find? Prod.fst id (records.map task) = (Ordered.find? Record.id id records).map task := by
  unfold Ordered.find?
  rw [List.find?_map]
  rfl

/-- What is found in the first of some records in order is not found in the others. -/
theorem find?_rest_eq_none {first rest : List Record} {id : String} {record : Record}
    (ascending : Ordered.Ascending Record.id (first ++ rest))
    (inFirst : Ordered.find? Record.id id first = some record) :
    Ordered.find? Record.id id rest = none := by
  obtain ⟨_, _, apart⟩ := List.pairwise_append.1 ascending
  cases inRest : Ordered.find? Record.id id rest with
  | none => rfl
  | some other =>
    obtain ⟨isId, member⟩ := Ordered.key_of_find? inFirst
    obtain ⟨isIdOther, memberOther⟩ := Ordered.key_of_find? inRest
    have less := apart record member other memberOther
    rw [isId, isIdOther] at less
    exact absurd less (String.lt_irrefl _)

/-- After the first of the waiting records were looked through, the others wait. -/
theorem tasks_left {first rest : List Record} (sorted : before.Sorted) (sortedAfter : after.Sorted)
    (split : waiting before = first ++ rest)
    (same : after.find? = told refers first before.find?) :
    (waiting after).map task = rest.map task := by
  have ascending := (pending_waiting sorted).ascending
  rw [split] at ascending
  have ascendingRest := (List.pairwise_append.1 ascending).2.1
  have keyed : ∀ {records : List Record}, Ordered.Ascending Record.id records →
      Ordered.Ascending Prod.fst (records.map task) := fun inOrder => List.pairwise_map.2 inOrder
  apply Ordered.eq_of_find? (keyed (pending_waiting sortedAfter).ascending) (keyed ascendingRest)
  intro id
  have whole := find?_waiting sorted id
  have splitFind : Ordered.find? Record.id id (first ++ rest) =
      (Ordered.find? Record.id id first).or (Ordered.find? Record.id id rest) :=
    List.find?_append
  rw [split, splitFind] at whole
  rw [find?_tasks, find?_tasks, find?_waiting sortedAfter, same]
  unfold told
  cases found : before.find? id with
  | none =>
    rw [found] at whole
    rw [(Option.or_eq_none_iff.1 (whole.trans rfl)).2]
    cases mentioned : firstWith refers first id with
    | none => simp
    | some record => simp [afterScan, Record.ofId, Option.filter]
  | some old =>
    rw [found] at whole
    cases inFirst : Ordered.find? Record.id id first with
    | none =>
      rw [inFirst, Option.none_or] at whole
      rw [whole]
      cases waits : (old.discovered.isNone && old.optimized.isSome) with
      | true => simp [Option.filter, afterScan, inFirst, waits, task]
      | false => simp [Option.filter, afterScan, inFirst, waits]
    | some record =>
      rw [find?_rest_eq_none ascending inFirst]
      simp [Option.filter, afterScan, inFirst]

/-- A scan reads nothing but the tasks of its records. -/
theorem discoverEach_tasks {one other : List Record} (same : one.map task = other.map task) :
    discoverEach one = discoverEach other := by
  induction one generalizing other with
  | nil =>
    rw [List.map_eq_nil_iff.1 same.symm]
  | cons record rest inductionHypothesis =>
    cases other with
    | nil => exact absurd same (by simp)
    | cons second others =>
      simp only [List.map_cons, List.cons.injEq] at same
      obtain ⟨sameId, sameDocument⟩ := Prod.mk.inj same.1
      unfold discoverEach discoverObject
      rw [sameId, sameDocument, inductionHypothesis same.2]

end Law

/-! ## Where a scan stops -/

section Stop

variable {α β : Type} {before after : Workspace} {label message : String}

/-- A step that fails for no document. -/
def SparesDocuments (step : Step α) : Prop :=
  ∀ before label message after, step.perform before ≠ (.error (.document label message), after)

theorem SparesDocuments.pure {value : α} : SparesDocuments (Pure.pure value : Step α) :=
  fun _ _ _ _ ran => absurd (Prod.mk.inj ran).1 (by simp)

theorem SparesDocuments.look {view : Workspace → α} : SparesDocuments (Step.look view) :=
  fun _ _ _ _ ran => absurd (Prod.mk.inj ran).1 (by simp)

theorem SparesDocuments.bind {step : Step α} {next : α → Step β} (first : SparesDocuments step)
    (second : ∀ value, SparesDocuments (next value)) : SparesDocuments (step >>= next) := by
  intro before label message after ran
  rcases Step.fails_bind ran with fails | ⟨value, between, _, fails⟩
  · exact first before label message after fails
  · exact second value between label message after fails

theorem SparesDocuments.ite {condition : Prop} [Decidable condition] {first second : Step α}
    (whenTrue : SparesDocuments first) (whenFalse : SparesDocuments second) :
    SparesDocuments (if condition then first else second) := by
  split
  · exact whenTrue
  · exact whenFalse

theorem persist_sparesDocuments {catalog : Catalog} {disk next : Disk}
    {written : Except Failure Unit} (persisted : catalog.persist disk = (written, next)) :
    written ≠ .error (.document label message) := by
  cases Catalog.persist_iff.1 persisted with
  | unprepared | replaced => simp
  | unwritten => simp [Catalog.siblingRefused]
  | unmoved => simp [Catalog.replaceRefused]

theorem map_sparesDocuments {written : Except Failure Unit} {change : Unit → α}
    (same : (.error (.document label message) : Except Failure α) = written.map change) :
    written = .error (.document label message) := by
  cases written with
  | ok value => exact absurd same (by simp [Except.map])
  | error failure =>
    simp only [Except.map, Except.error.injEq] at same
    rw [same]

theorem SparesDocuments.addForeign {name : String} : SparesDocuments (Step.addForeign name) := by
  intro before label message after ran
  obtain ⟨catalog, disk, added, _⟩ := Step.perform_addForeign ran
  rcases Catalog.add_any added with ⟨_, _, same, _⟩ | ⟨_, _, written, persisted, same⟩
  · exact absurd same (by simp)
  · exact persist_sparesDocuments persisted (map_sparesDocuments same)

theorem SparesDocuments.updateForeign {name : String} {change : Record → Record} :
    SparesDocuments (Step.updateForeign name change) := by
  intro before label message after ran
  obtain ⟨catalog, disk, updated, _⟩ := Step.perform_updateForeign ran
  cases found : before.foreign.find? name with
  | none =>
    rw [Catalog.update_missing found] at updated
    exact absurd (Prod.mk.inj updated).1 (by simp)
  | some old =>
    rcases (Catalog.update_any found updated).2 with ⟨_, _, same⟩ | ⟨_, written, persisted, same⟩
    · exact absurd same (by simp)
    · exact persist_sparesDocuments persisted (map_sparesDocuments same)

theorem SparesDocuments.discoverNames {document : Path} (names : List String) :
    SparesDocuments (discoverNames document names) := by
  induction names with
  | nil => exact .pure
  | cons name rest inductionHypothesis =>
    apply SparesDocuments.bind
    · apply SparesDocuments.bind .look
      intro known
      have marked : SparesDocuments (Step.updateForeign name (asSeenIn document) >>= fun _ =>
          (Pure.pure (if known then 0 else 1) : Step Nat)) :=
        .bind .updateForeign fun _ => .pure
      exact .ite (.bind .addForeign fun _ => marked) marked
    · exact fun _ => .bind inductionHypothesis fun _ => .pure

/-- An object whose document can't be read leaves everything as it was. -/
theorem discoverObject_stops {record : Record}
    (ran : (discoverObject record).perform before = (.error (.document label message), after)) :
    after = before := by
  unfold discoverObject at ran
  split at ran
  · exact absurd ran (SparesDocuments.pure _ _ _ _)
  · next document isOptimized =>
    rcases Step.fails_bind ran with fails | ⟨disk, _, looked, fails⟩
    · exact absurd fails (SparesDocuments.look _ _ _ _)
    · obtain ⟨_, rfl⟩ := Step.yields_look.1 looked
      rcases Step.fails_bind fails with unread | ⟨names, between, _, failsLater⟩
      · exact (Prod.mk.inj unread).2.symm
      · have spares : SparesDocuments (discoverNames document names >>= fun added =>
            Step.updateForeign record.id (asDiscovered names.length) >>= fun _ =>
            (Pure.pure added : Step Nat)) :=
          .bind (.discoverNames names) fun _ => .bind .updateForeign fun _ => .pure
        exact absurd failsLater (spares _ _ _ _)

/-- A scan that stops at a document has looked through the records before it. -/
theorem discoverEach_stops {records : List Record}
    (ran : (discoverEach records).perform before = (.error (.document label message), after)) :
    ∃ first record rest added, records = first ++ record :: rest ∧
      (discoverEach first).Yields before added after := by
  induction records generalizing before with
  | nil => exact absurd ran (SparesDocuments.pure _ _ _ _)
  | cons record rest inductionHypothesis =>
    unfold discoverEach at ran
    rcases Step.fails_bind ran with fails | ⟨one, between, looked, fails⟩
    · exact ⟨[], record, rest, 0, rfl, Step.yields_pure.2 ⟨rfl, (discoverObject_stops fails).symm⟩⟩
    · rcases Step.fails_bind fails with failsRest | ⟨_, _, _, failsEnd⟩
      · obtain ⟨first, stop, others, more, split, scanned⟩ := inductionHypothesis failsRest
        exact ⟨record :: first, stop, others, one + more, by rw [split]; rfl,
          yields_discoverEach_cons.2 ⟨one, between, more, looked, scanned, rfl⟩⟩
      · exact absurd failsEnd (SparesDocuments.pure _ _ _ _)

end Stop

/-! ## A scan that goes through -/

section Through

variable {base : Catalog} {repaired rewritten : Disk} {present : Workspace} {name : String}

/-- A disk without outages on which a catalog file could be written. -/
structure Serves (base : Catalog) (repaired rewritten : Disk) : Prop where
  sound : repaired.Sound
  calm : repaired.Calm
  isText : base.path.IsText
  writes : base.persist repaired = (.ok (), rewritten)

/-- A workspace whose catalog was written to such a disk any number of times. -/
structure Served (base : Catalog) (repaired : Disk) (present : Workspace) : Prop where
  path : present.foreign.path = base.path
  settles : Settles base.path repaired present.disk
  calm : present.disk.Calm

variable (serves : Serves base repaired rewritten)
include serves

theorem Served.persist (served : Served base repaired present) (catalog : Catalog)
    (samePath : catalog.path = present.foreign.path) :
    ∃ next, catalog.persist present.disk = (.ok (), next) ∧
      Settles base.path repaired next ∧ next.Calm :=
  Catalog.persist_settled serves.sound serves.calm serves.isText serves.writes
    (samePath.trans served.path) served.settles served.calm

theorem Served.add (served : Served base repaired present)
    (missing : present.foreign.find? name = none) :
    ∃ record after, (Step.addForeign name).Yields present record after ∧
      Served base repaired after ∧ ∃ fresh, after.foreign.find? name = some fresh := by
  obtain ⟨next, persisted, settles, calm⟩ :=
    served.persist serves (present.foreign.put (.ofId name)) rfl
  have added : present.foreign.add name present.disk =
      (.ok (.ofId name), present.foreign.put (.ofId name), next) := by
    unfold Catalog.add
    rw [missing]
    simp only [persisted]
  refine ⟨_, _, Step.yields_addForeign.2 ⟨_, _, added, rfl⟩, ⟨served.path, settles, calm⟩, ?_⟩
  exact ⟨_, Catalog.find?_put_same present.foreign (.ofId name)⟩

theorem Served.update (served : Served base repaired present) (change : Record → Record)
    {old : Record} (found : present.foreign.find? name = some old) :
    ∃ record after, (Step.updateForeign name change).Yields present record after ∧
      Served base repaired after := by
  obtain ⟨next, persisted, settles, calm⟩ :=
    served.persist serves (present.foreign.put { change old with id := old.id }) rfl
  by_cases same : Record.same { change old with id := old.id } old = true
  · have updated : present.foreign.update name change present.disk =
        (.ok { change old with id := old.id },
          present.foreign.put { change old with id := old.id }, present.disk) := by
      unfold Catalog.update
      rw [found]
      exact if_pos same
    exact ⟨_, _, Step.yields_updateForeign.2 ⟨_, _, updated, rfl⟩, served.path, served.settles,
      served.calm⟩
  · have updated : present.foreign.update name change present.disk =
        (.ok { change old with id := old.id },
          present.foreign.put { change old with id := old.id }, next) := by
      unfold Catalog.update
      rw [found]
      refine (if_neg same).trans ?_
      simp only [persisted]
    exact ⟨_, _, Step.yields_updateForeign.2 ⟨_, _, updated, rfl⟩, served.path, settles, calm⟩

theorem Served.discoverName (served : Served base repaired present) (document : Path)
    (name : String) :
    ∃ added after, (discoverName document name).Yields present added after ∧
      Served base repaired after := by
  cases found : present.foreign.find? name with
  | some old =>
    have known : present.foreign.contains name = true := by simp [Catalog.contains, found]
    obtain ⟨record, after, updated, there⟩ := served.update serves (asSeenIn document) found
    exact ⟨0, after, yields_discoverName.2 (Or.inl ⟨known, rfl, record, updated⟩), there⟩
  | none =>
    have unknown : present.foreign.contains name = false := by simp [Catalog.contains, found]
    obtain ⟨one, between, added, servedBetween, fresh, foundFresh⟩ := served.add serves found
    obtain ⟨record, after, updated, there⟩ :=
      servedBetween.update serves (asSeenIn document) foundFresh
    exact ⟨1, after, yields_discoverName.2 (Or.inr ⟨unknown, rfl, one, between, record, added,
      updated⟩), there⟩

theorem Served.discoverNames (served : Served base repaired present) (document : Path)
    (names : List String) :
    ∃ added after, (discoverNames document names).Yields present added after ∧
      Served base repaired after := by
  induction names generalizing present with
  | nil => exact ⟨0, present, Step.yields_pure.2 ⟨rfl, rfl⟩, served⟩
  | cons name rest inductionHypothesis =>
    obtain ⟨one, between, first, servedBetween⟩ := served.discoverName serves document name
    obtain ⟨more, after, others, there⟩ := inductionHypothesis servedBetween
    exact ⟨one + more, after,
      yields_discoverNames_cons.2 ⟨one, between, more, first, others, rfl⟩, there⟩

/-- An object whose document can be read is looked through. -/
theorem Served.discoverObject {record : Record} {document : Path} {names : List String}
    (served : Served base repaired present) (intact : Intact present)
    (isOptimized : record.optimized = some document)
    (known : ∃ old, present.foreign.find? record.id = some old)
    (reads : namesIn present.disk document = .ok names) :
    ∃ added after, (discoverObject record).Yields present added after ∧
      Served base repaired after := by
  obtain ⟨one, between, seen, servedBetween⟩ := served.discoverNames serves document names
  obtain ⟨_, sameSeen⟩ := discoverNames_seen intact seen
  obtain ⟨now, foundNow⟩ : ∃ now, between.foreign.find? record.id = some now := by
    rw [sameSeen]
    unfold seenIn
    split
    · exact ⟨_, rfl⟩
    · exact known
  obtain ⟨marked, middle, updated, servedMiddle⟩ :=
    servedBetween.update serves (asDiscovered names.length) foundNow
  exact ⟨one, middle, (yields_discoverObject isOptimized).2 ⟨names, between, marked, reads, seen,
    updated⟩, servedMiddle⟩

/-- Where every document can be read and the catalog be written, a scan goes through. -/
theorem Served.discoverEach {records : List Record} (served : Served base repaired present)
    (intact : Intact present) (pending : Pending records present.foreign)
    (readable : ∀ record ∈ records, ∀ document ∈ record.optimized, ∀ disk,
      Settles base.path repaired disk → ∃ names, namesIn disk document = .ok names) :
    ∃ added after, (discoverEach records).Yields present added after ∧
      Served base repaired after := by
  induction records generalizing present with
  | nil => exact ⟨0, present, Step.yields_pure.2 ⟨rfl, rfl⟩, served⟩
  | cons record rest inductionHypothesis =>
    obtain ⟨document, isOptimized⟩ :=
      Option.isSome_iff_exists.1 (pending.optimized record List.mem_cons_self)
    obtain ⟨names, reads⟩ :=
      readable record List.mem_cons_self document isOptimized present.disk served.settles
    obtain ⟨old, found, _⟩ := pending.known record List.mem_cons_self
    obtain ⟨one, middle, looked, servedMiddle⟩ :=
      served.discoverObject serves intact isOptimized ⟨old, found⟩ reads
    obtain ⟨_, _, _, _, enlarged, left, _⟩ := pending.looked intact looked
    obtain ⟨more, after, others, there⟩ := inductionHypothesis servedMiddle
      (enlarged.intact intact) left fun other member =>
        readable other (List.mem_cons_of_mem record member)
    exact ⟨one + more, after,
      yields_discoverEach_cons.2 ⟨one, middle, more, looked, others, rfl⟩, there⟩

end Through

end EoAssembly.Build
