import EoAssembly.Proofs.Build.LastPull
import Mathlib.Data.List.Nodup

/-!
Contract: a settled build is complete.

When an assembly succeeds, every object with a source went through all stages.
When moreover its files are apart, every name that an optimized document refers
to is seen to; a document that the last pull itself writes may refer to names
that nobody looks at again.

Owns `Sane`, which all operations keep, and `settled_complete`.
-/

namespace EoAssembly.Build

open Disk (Touches)

variable {settings : Settings} {remote : Remote} {own : Location → Prop} {current : Location}
  {before after : Workspace}

/-! ## Sane workspaces -/

/-- A workspace with a tree of files and an open catalog in the target. -/
structure Sane (settings : Settings) (current : Location) (present : Workspace) : Prop where
  sound : present.disk.Sound
  current : present.disk.current = current
  sorted : present.foreign.Sorted
  path : present.foreign.path = catalogPath settings.target
  passable : present.foreign.records ≠ [] → present.disk.Passable settings.target

theorem passable_catalogPath {disk : Disk} {target : Path} :
    disk.Passable (catalogPath target) ↔ disk.Passable target := by
  unfold Disk.Passable
  rw [left_catalogPath]

theorem records_of_find? {catalog : Catalog} {id : String} {record : Record}
    (found : catalog.find? id = some record) : catalog.records ≠ [] :=
  List.ne_nil_of_mem (Catalog.mem_of_find? found)

namespace Sane

/-- Writing files keeps a workspace sane. -/
theorem touch {written gone made : List Location} {disk : Disk}
    (sane : Sane settings current before) (touches : Touches written gone made before.disk disk) :
    Sane settings current { before with disk := disk } where
  sound := touches.sound
  current := touches.current.trans sane.current
  sorted := sane.sorted
  path := sane.path
  passable some_ := touches.passable (sane.passable some_)

/-- A record that is put and persisted keeps a workspace sane. -/
theorem put {record : Record} {disk : Disk} (sane : Sane settings current before)
    (persisted : (before.foreign.put record).persist before.disk = (.ok (), disk)) :
    Sane settings current { before with foreign := before.foreign.put record, disk := disk } := by
  obtain ⟨passable, touches⟩ := Catalog.persist_ok sane.sound persisted
  refine ⟨touches.sound, touches.current.trans sane.current, Catalog.sorted_put sane.sorted,
    sane.path, fun _ => ?_⟩
  rw [Catalog.path_put, sane.path] at passable
  exact passable_catalogPath.1 passable

theorem external {catalog : Catalog} (sane : Sane settings current before) :
    Sane settings current { before with external := catalog } :=
  ⟨sane.sound, sane.current, sane.sorted, sane.path, sane.passable⟩

theorem persisted {catalog : Catalog} {disk : Disk} (sane : Sane settings current before)
    (ran : catalog.persist before.disk = (.ok (), disk)) :
    Sane settings current { before with external := catalog, disk := disk } :=
  (sane.touch (Catalog.persist_ok sane.sound ran).2).external

end Sane

/-- Every operation of a build keeps its workspace sane. -/
theorem sane_invariant (store : remote.KeepsTo own) (apart : StoreApart settings current own) :
    Invariant remote (Sane settings current) where
  add id := by
    intro before record after sane ran
    obtain ⟨catalog, disk, added, result⟩ := Step.yields_addForeign.1 ran
    rw [result]
    rcases Catalog.add_ok added with ⟨_, same, sameDisk⟩ | ⟨_, _, same, persisted⟩
    · rw [same, sameDisk]
      exact sane
    · rw [same] at persisted ⊢
      exact sane.put persisted
  update id change _ := by
    intro before record after sane ran
    obtain ⟨catalog, disk, updated, result⟩ := Step.yields_updateForeign.1 ran
    obtain ⟨old, found, _, _, same, rest⟩ := Catalog.update_ok updated
    rw [result, same]
    rcases rest with sameDisk | persisted
    · rw [sameDisk]
      exact ⟨sane.sound, sane.current, Catalog.sorted_put sane.sorted, sane.path,
        fun _ => sane.passable (records_of_find? found)⟩
    · rw [same] at persisted
      exact sane.put persisted
  addExternal id := by
    intro before record after sane ran
    obtain ⟨catalog, disk, added, result⟩ := Step.yields_addExternal.1 ran
    rw [result]
    rcases Catalog.add_ok added with ⟨_, same, sameDisk⟩ | ⟨_, _, _, persisted⟩
    · rw [same, sameDisk]
      exact sane
    · exact sane.persisted persisted
  updateExternal id change := by
    intro before record after sane ran
    obtain ⟨catalog, disk, updated, result⟩ := Step.yields_updateExternal.1 ran
    obtain ⟨_, _, _, _, _, rest⟩ := Catalog.update_ok updated
    rw [result]
    rcases rest with sameDisk | persisted
    · rw [sameDisk]
      exact sane.external
    · exact sane.persisted persisted
  write path text := by
    intro before value after sane ran
    obtain ⟨disk, written, result⟩ := Step.yields_write.1 ran
    rw [result]
    exact sane.touch (Document.writeBelow_ok sane.sound written).2.2.1
  fetch name := by
    intro before value after sane ran
    obtain ⟨disk, fetched, result⟩ := Step.yields_fetch.1 ran
    obtain ⟨sound, sameCurrent, outside⟩ := store name before.disk sane.sound
    rw [fetched] at sound sameCurrent outside
    simp only at sound sameCurrent outside
    rw [result]
    refine ⟨sound, sameCurrent.trans sane.current, sane.sorted, sane.path, fun some_ => ?_⟩
    refine (Disk.passable_congr sameCurrent fun passed member => ?_).2 (sane.passable some_)
    rw [sane.current] at member
    exact outside passed fun owned => (apart passed owned).1 member
  parse id text := by
    intro before value after sane ran
    rw [(Step.yields_parse.1 ran).2]
    exact ⟨sane.sound, sane.current, sane.sorted, sane.path, sane.passable⟩
  table := by
    intro before value after sane ran
    obtain ⟨slot, journal, result, _⟩ := Step.table_frame ran
    rw [result]
    exact ⟨sane.sound, sane.current, sane.sorted, sane.path, sane.passable⟩

theorem sane_of_reopen (sound : before.disk.Sound) (sameCurrent : before.disk.current = current)
    (ran : (Workspace.reopen settings.target).Yields before () after) :
    Sane settings current after := by
  obtain ⟨foreign, external, result, opened, _⟩ := yields_reopen.1 ran
  obtain ⟨path, sorted, there⟩ := Catalog.openAt_ok opened
  rw [result]
  refine ⟨sound, sameCurrent, sorted, path, fun some_ => ?_⟩
  obtain ⟨entry, found⟩ := Disk.exists?_iff.1 (there.resolve_left some_)
  exact passable_catalogPath.1 (Disk.entry_eq_some found).2.1

/-! ## Names of documents -/

theorem namesIn_ok {disk : Disk} {document : Path} {names : List String} :
    namesIn disk document = .ok names ↔
      ∃ text found, disk.entry? document = some (.file (.text text)) ∧
        Document.ofText text document.text = .ok found ∧ found.foreignNames = names := by
  have loads : namesIn disk document = .ok names ↔
      ∃ found, Document.load disk document = .ok found ∧ found.foreignNames = names := by
    unfold namesIn
    cases Document.load disk document <;> simp
  rw [loads]
  constructor
  · rintro ⟨found, isDocument, same⟩
    obtain ⟨text, stands, reads⟩ := Document.load_eq_ok.1 isDocument
    exact ⟨text, found, stands, reads, same⟩
  · rintro ⟨text, found, stands, reads, same⟩
    exact ⟨found, Document.load_eq_ok.2 ⟨text, stands, reads⟩, same⟩

theorem namesIn_congr {first second : Disk} {document : Path} {names : List String}
    (same : ∀ content, second.entry? document = some (.file content) ↔
      first.entry? document = some (.file content)) :
    namesIn second document = .ok names ↔ namesIn first document = .ok names := by
  rw [namesIn_ok, namesIn_ok]
  simp only [same]

theorem mem_referredNames {disk : Disk} {catalog : Catalog} {name : String} :
    name ∈ referredNames disk catalog ↔
      ∃ record ∈ catalog.records, ∃ document names, record.optimized = some document ∧
        namesIn disk document = .ok names ∧ name ∈ names := by
  unfold referredNames
  rw [Ordered.mem_names, List.mem_flatMap]
  refine exists_congr fun record => and_congr_right fun _ => ?_
  unfold namesOfRecord
  cases record.optimized with
  | none => simp
  | some document =>
    cases names : namesIn disk document with
    | error failure => simp [names]
    | ok found => simp [names]

theorem nodup_referredNames (disk : Disk) (catalog : Catalog) :
    (referredNames disk catalog).Nodup := by
  have ascending := Ordered.ascending_ofList id (catalog.records.flatMap (namesOfRecord disk))
  refine ascending.imp fun less same => ?_
  rw [same] at less
  exact String.lt_irrefl _ less

/-! ## Completeness -/

theorem optimized_of_mem {first second : Catalog} (sorted : first.Sorted)
    (same : ∀ id, (second.find? id).map Record.optimized = (first.find? id).map Record.optimized)
    {record : Record} (member : record ∈ first.records) :
    ∃ twin ∈ second.records, twin.optimized = record.optimized := by
  have agrees := same record.id
  rw [Catalog.find?_of_mem sorted member] at agrees
  obtain ⟨twin, found, optimized⟩ := Option.map_eq_some_iff.1 agrees
  exact ⟨twin, Catalog.mem_of_find? found, optimized⟩

/-- The documents at the end of the last pull refer to the names that it looked for. -/
theorem Kept.mem_referredNames {last : Workspace} {name : String}
    (kept : Kept settings own last [] after) (sortedLast : last.foreign.Sorted)
    (sorted : after.foreign.Sorted)
    (documents : ∀ record ∈ after.foreign.records, ∀ document, record.optimized = some document →
      Aloof settings own last.disk.current document) :
    name ∈ referredNames after.disk after.foreign ↔
      name ∈ referredNames last.disk last.foreign := by
  rw [Build.mem_referredNames, Build.mem_referredNames]
  constructor
  · rintro ⟨record, member, document, names, isOptimized, reads, among⟩
    obtain ⟨twin, inLast, same⟩ :=
      optimized_of_mem sorted (fun id => (kept.optimized id).symm) member
    have aloof := documents record member document isOptimized
    exact ⟨twin, inLast, document, names, same.trans isOptimized,
      (namesIn_congr (kept.documents document aloof)).1 reads, among⟩
  · rintro ⟨record, member, document, names, isOptimized, reads, among⟩
    obtain ⟨twin, inAfter, same⟩ := optimized_of_mem sortedLast kept.optimized member
    have aloof := documents twin inAfter document (same.trans isOptimized)
    exact ⟨twin, inAfter, document, names, same.trans isOptimized,
      (namesIn_congr (kept.documents document aloof)).2 reads, among⟩

/-- A settled build is complete: every object with a source went through all stages,
and when the files of documents, names and store are apart, every name that an
optimized document refers to is seen to. -/
theorem settled_complete {start final : Workspace} {answer : Assembly}
    (ran : (assemble settings remote).Yields start answer final) :
    (∀ record ∈ final.foreign.records, record.source.isSome = true →
      record.xmir.isSome = true ∧ record.optimized.isSome = true ∧
        record.discovered.isSome = true) ∧
    (settings.target.IsText → start.disk.Sound → remote.KeepsTo own →
      StoreApart settings start.disk.current own → Undisturbed settings own final →
      ∀ record ∈ final.foreign.records, ∀ document names, record.optimized = some document →
        namesIn final.disk document = .ok names → ∀ name ∈ names,
          Accounted settings final name) := by
  obtain ⟨opened, registered, ranOpen, ranRegister, ranSettle, _⟩ := yields_assemble.1 ran
  obtain ⟨foreign, external, result, openedAt, _⟩ := yields_reopen.1 ranOpen
  have sortedOpened : opened.foreign.Sorted := by
    rw [result]
    exact (Catalog.openAt_ok openedAt).2.1
  have growing := growsFrom_invariant remote opened.foreign
  have atRegistered := growing.register opened _ registered ⟨sortedOpened, .refl _⟩ ranRegister
  constructor
  · intro record member some_
    obtain ⟨last, fetched, ⟨sortedLast, _⟩, ranLast, same⟩ :=
      settle_last (growing.supply settings) atRegistered ranSettle
    have sortedSettled := ((growsFrom_invariant remote last.foreign).supply settings).cycle last
      fetched final ⟨sortedLast, .refl _⟩ ranLast
    obtain ⟨finished, _⟩ := cycle_idle sortedLast same ranLast
    obtain ⟨twin, found, agrees⟩ := Catalog.canonicalRecord_same same.symm
      (Catalog.find?_of_mem sortedSettled.1 member)
    have within := Catalog.within_of_canonical agrees.symm
    obtain ⟨parsed, optimized, discovered⟩ := finished twin (Catalog.mem_of_find? found)
    have source := (Catalog.within_of_canonical agrees).source some_
    exact ⟨within.xmir (parsed source), within.optimized (optimized (parsed source)),
      within.discovered (discovered (optimized (parsed source)))⟩
  · intro written sound store storeApart undisturbed record member document names isOptimized
      reads name among
    have keeping := sane_invariant store storeApart
    have saneOpened := sane_of_reopen sound rfl ranOpen
    have saneRegistered := keeping.register opened _ registered saneOpened ranRegister
    obtain ⟨last, fetched, sane, ranLast, same⟩ :=
      settle_last (keeping.supply settings) saneRegistered ranSettle
    obtain ⟨_, ranPull⟩ := cycle_idle sane.sorted same ranLast
    have ranEach := yields_pullAll.1 ranPull
    have saneSettled := (keeping.supply settings).cycle last fetched final sane ranLast
    have back : final.foreign.Grows last.foreign := Catalog.grows_of_state same.symm
    have some_ : last.foreign.records ≠ [] := by
      obtain ⟨twin, found, _⟩ := back record.id record
        (Catalog.find?_of_mem saneSettled.sorted member)
      exact records_of_find? found
    have start : Kept settings own last [] last :=
      ⟨sane.sound, rfl, sane.path, sane.passable some_, fun _ _ _ => Iff.rfl, fun _ => rfl,
        fun _ => rfl, by simp⟩
    rw [← sane.current] at storeApart
    obtain ⟨frame, accounts⟩ := Kept.pullEach written store storeApart sane.sorted (.refl _) back
      ranEach
    have kept := frame start
    have documents := undisturbed.documents
    have apart := undisturbed.names
    rw [kept.current] at documents apart
    have sameNames : ∀ other, other ∈ referredNames final.disk final.foreign ↔
        other ∈ referredNames last.disk last.foreign := fun other =>
      kept.mem_referredNames sane.sorted saneSettled.sorted documents
    have inSought : ∀ other, other ∈ (referredNames last.disk last.foreign).filter
        (fun name => !isLocal last.foreign name) → other ∈ soughtNames final := by
      intro other inNames
      obtain ⟨referred, sought⟩ := List.mem_filter.1 inNames
      rw [← kept.ofProject other] at sought
      exact List.mem_filter.2 ⟨(sameNames other).2 referred, sought⟩
    have keptAll := accounts [] (nodup_referredNames _ _)
      (fun first inFirst second inSecond => apart first (inSought first inFirst) second
        (inSought second inSecond)) start
    have referred : name ∈ referredNames final.disk final.foreign :=
      mem_referredNames.2 ⟨record, member, document, names, isOptimized, reads, among⟩
    cases ofProject : isLocal final.foreign name with
    | true => exact Or.inl ofProject
    | false =>
      rw [kept.ofProject] at ofProject
      exact (keptAll.accounted name ((sameNames name).1 referred) ofProject).2

/-- Where a build itself puts optimized documents, no pull disturbs them. -/
theorem aloof_optimizedPlace {id : String} (placeable : ObjectName.Placeable id)
    (written : settings.target.IsText)
    (protocols : ¬settings.protocols.goal current <+:
      (optimizedPlace settings.target id).goal current)
    (store : ¬own ((optimizedPlace settings.target id).goal current)) :
    Aloof settings own current (optimizedPlace settings.target id) := by
  have components :=
    components_stage isName_optimized isExtension_document placeable settings.target
  have goal : (optimizedPlace settings.target id).goal current =
      settings.target.goal current ++
        optimizedDirectory :: ObjectName.segments documentExtension id :=
    Path.goal_of_names current components
  have left : (optimizedPlace settings.target id).left current = settings.target.left current :=
    Path.left_of_names current components
  refine ⟨fun passed member => Or.inl ?_, ?_, ?_, ?_, ?_, store⟩
  · rw [left] at member
    exact member
  · rw [goal, goal_catalogPath]
    intro same
    exact absurd (List.cons.inj (List.append_cancel_left same)).1 (by decide)
  · rw [goal, goal_siblingPath written]
    intro same
    exact absurd (List.cons.inj (List.append_cancel_left same)).1 (by decide)
  · intro name passes
    rw [goal, goal_pulledPlace settings current (ObjectName.placeable_of_checkPlace passes)]
    intro same
    exact absurd (List.cons.inj (List.append_cancel_left same)).1 (by decide)
  · intro name passes same
    rw [goal_logPlace settings current (ObjectName.placeable_of_checkPlace passes)] at same
    rw [same] at protocols
    exact protocols (List.prefix_append _ _)

/-! ## A complete build -/

/-- The settings of a project in the directories `s`, `t` and `p`. -/
def sampleSettings : Settings :=
  { sources := .ofText "s", target := .ofText "t", protocols := .ofText "p" }

/-- A store of programs without objects, and a parser that answers its input. -/
def sampleRemote : Remote where
  fetch := Remote.fetchOf fun _ => .ok "<program><objects/></program>"
  parse _ text := .ok text
  table _ := .ok ""

/-- A project with one source, which refers to `b`. -/
def sampleStart : Workspace where
  disk := ⟨[(["w"], .directory), (["w", "s"], .directory), (["w", "s", "a.eo"],
    .file (.text "<program><objects><o base=\x22b\x22/></objects></program>"))], ["w"], []⟩
  foreign := ⟨.ofText "", []⟩
  external := ⟨.ofText "", []⟩
  slot := .empty
  journal := []
  instant := ""

/-- What the assembly of the project comes to. -/
def sampleRun : Except Failure Assembly × Workspace :=
  (assemble sampleSettings sampleRemote).perform sampleStart

instance (settings : Settings) (present : Workspace) (name : String) :
    Decidable (Accounted settings present name) :=
  inferInstanceAs (Decidable (_ ∨ _ ∨ _))

theorem fetchOf_keepsTo (store : String → Except Failure String)
    (parse : String → String → Except Failure String) (table : Disk → Except Failure String) :
    Remote.KeepsTo ⟨Remote.fetchOf store, parse, table⟩ fun _ => False :=
  fun _ _ sound => ⟨sound, rfl, fun _ _ => rfl⟩

theorem sampleRun_facts : sampleRun.1 = .ok ⟨1, 3, 1, 2⟩ ∧ sampleRun.2.disk.current = ["w"] ∧
    soughtNames sampleRun.2 = ["org.eolang.b"] ∧
    sampleRun.2.foreign.records.map Record.optimized =
      [some (optimizedPlace sampleSettings.target "a"),
        some (optimizedPlace sampleSettings.target "org.eolang.b")] ∧
    namesIn sampleRun.2.disk (optimizedPlace sampleSettings.target "a") =
      .ok ["org.eolang.b"] ∧
    sampleRun.2.foreign.records.map Record.discovered = [some 1, some 0] := by
  decide +kernel

theorem sample_complete :
    (assemble sampleSettings sampleRemote).Yields sampleStart ⟨1, 3, 1, 2⟩ sampleRun.2 ∧
      Undisturbed sampleSettings (fun _ => False) sampleRun.2 ∧
      Accounted sampleSettings sampleRun.2 "org.eolang.b" := by
  obtain ⟨answer, current, sought, places, names, _⟩ := sampleRun_facts
  have ran : (assemble sampleSettings sampleRemote).Yields sampleStart ⟨1, 3, 1, 2⟩ sampleRun.2 :=
    Step.yields_perform answer
  have written : sampleSettings.target.IsText := by decide
  have sound : sampleStart.disk.Sound := Disk.sound_of_entries (by decide) (by decide)
  have aloof : ∀ id, ObjectName.checkPlace id = .ok () →
      ¬sampleSettings.protocols.goal ["w"] <+:
        (optimizedPlace sampleSettings.target id).goal ["w"] →
      Aloof sampleSettings (fun _ => False) ["w"] (optimizedPlace sampleSettings.target id) :=
    fun id passes apart =>
      aloof_optimizedPlace (ObjectName.placeable_of_checkPlace passes) written apart (fun h => h)
  have undisturbed : Undisturbed sampleSettings (fun _ => False) sampleRun.2 := by
    constructor
    · intro record member document isOptimized
      have among : record.optimized ∈ sampleRun.2.foreign.records.map Record.optimized :=
        List.mem_map_of_mem member
      rw [places, isOptimized] at among
      rw [current]
      rcases List.mem_cons.1 among with first | later
      · rw [Option.some.inj first]
        exact aloof "a" (by decide) (by decide)
      · rw [Option.some.inj (List.mem_singleton.1 later)]
        exact aloof "org.eolang.b" (by decide) (by decide)
    · rw [sought]
      intro name member other memberOther different
      rw [List.mem_singleton.1 member, List.mem_singleton.1 memberOther] at different
      exact absurd rfl different
  refine ⟨ran, undisturbed, ?_⟩
  have first : some (optimizedPlace sampleSettings.target "a") ∈
      sampleRun.2.foreign.records.map Record.optimized := by
    rw [places]
    exact List.mem_cons_self
  obtain ⟨record, member, isOptimized⟩ := List.mem_map.1 first
  exact (settled_complete ran).2 written sound (fetchOf_keepsTo _ _ _) (fun _ owned => owned.elim)
    undisturbed record member _ _ isOptimized names _ List.mem_cons_self

/-! ## An incomplete build -/

/-- The settings of the project, where sources are overwritten. -/
def staleSettings : Settings := { sampleSettings with overwrite := true }

/-- A store of programs that refer to `c`. -/
def staleRemote : Remote where
  fetch := Remote.fetchOf fun _ => .ok "<program><objects><o base=\x22c\x22/></objects></program>"
  parse _ text := .ok text
  table _ := .ok ""

/-- A catalog where the optimized document of `a` is the pulled source of `b`. -/
def staleCatalog : String :=
  "[\x7b\x22id\x22:\x22a\x22,\x22source\x22:\x22s/a.eo\x22,\x22xmir\x22:\x22x\x22,"
    ++ "\x22optimized\x22:\x22t/04-pull/b.eo\x22,\x22discovered\x22:1\x7d,"
    ++ "\x7b\x22id\x22:\x22b\x22,\x22source\x22:\x22t/04-pull/b.eo\x22,\x22xmir\x22:\x22x\x22,"
    ++ "\x22optimized\x22:\x22x\x22,\x22discovered\x22:0,\x22pulled\x22:true,"
    ++ "\x22status\x22:\x22pulled\x22\x7d]"

/-- A project with this catalog. -/
def staleStart : Workspace :=
  { sampleStart with
    disk := ⟨[(["w"], .directory), (["w", "s"], .directory), (["w", "s", "a.eo"], .file (.text "a")),
      (["w", "t"], .directory), (["w", "t", "04-pull"], .directory),
      (["w", "t", "04-pull", "b.eo"],
        .file (.text "<program><objects><o base=\x22b\x22/></objects></program>")),
      (["w", "t", "eo-foreign.json"], .file (.text staleCatalog))], ["w"], []⟩ }

/-- What the assembly of the project comes to. -/
def staleRun : Except Failure Assembly × Workspace :=
  (assemble staleSettings staleRemote).perform staleStart

/-- A pull that writes an optimized document may leave a name in it that nobody has
seen to. -/
theorem stale_incomplete :
    ¬∀ (settings : Settings) (remote : Remote) (start final : Workspace) (answer : Assembly),
      settings.target.IsText → start.disk.Sound → remote.KeepsTo (fun _ => False) →
      (assemble settings remote).Yields start answer final →
      ∀ record ∈ final.foreign.records, ∀ document names, record.optimized = some document →
        namesIn final.disk document = .ok names → ∀ name ∈ names,
          Accounted settings final name := by
  intro complete
  have facts : staleRun.1 = .ok ⟨1, 1, 1, 2⟩ ∧
      some (.ofText "t/04-pull/b.eo") ∈ staleRun.2.foreign.records.map Record.optimized ∧
      namesIn staleRun.2.disk (.ofText "t/04-pull/b.eo") = .ok ["c"] ∧
      ¬Accounted staleSettings staleRun.2 "c" := by decide +kernel
  obtain ⟨answer, among, names, missed⟩ := facts
  have ran : (assemble staleSettings staleRemote).Yields staleStart ⟨1, 1, 1, 2⟩ staleRun.2 :=
    Step.yields_perform answer
  obtain ⟨record, member, isOptimized⟩ := List.mem_map.1 among
  exact missed (complete staleSettings staleRemote staleStart staleRun.2 _ (by decide)
    (Disk.sound_of_entries (by decide) (by decide)) (fetchOf_keepsTo _ _ _) ran record member _ _
    isOptimized names "c" List.mem_cons_self)

end EoAssembly.Build
