import EoAssembly.Proofs.Native.Dispatch

/-!
Contract: what the generated tables tell when a project changes between the runs of one target.

A run that finds inserts writes the table of names and the source that declares their
functions anew, and both tell of that run alone.  A run that finds none writes nothing, so
the tables of the last run that found some stay.  The tables are those of the last run
exactly when it found inserts or no run before it did.

Owns `Library.Knows`, `Library.Declares`, `Library.History`, and this law.
-/

namespace EoAssembly.Native.Library

open Document (Insert)

variable {target : Path} {before after present : Workspace} {draft next : Draft}
  {inserts found : List Insert} {records : List Record} {latest functions : List String}
  {locator : String} {names : List (String × String)}

/-! ## What the tables tell -/

/-- The table of names leads from a locator to a function. -/
def Knows (disk : Disk) (target : Path) (locator : String) : Prop :=
  ∃ registry, NativeRegistry.load disk (namesFile target) = .ok registry ∧
    (registry.names.lookup locator).isSome = true

/-- The source of the library declares functions; when it is not there it declares none. -/
def Declares (disk : Disk) (target : Path) (functions : List String) : Prop :=
  disk.readText (File.modules.path target) = .ok (modulesText functions) ∨
    functions = [] ∧ ∀ text, disk.readText (File.modules.path target) ≠ .ok text

theorem lookup_eq_some_iff {name : String} (ascending : Ordered.Ascending Prod.fst names) :
    names.lookup locator = some name ↔ (locator, name) ∈ names := by
  rw [NativeRegistry.lookup_eq, Option.map_eq_some_iff]
  constructor
  · rintro ⟨pair, found, rfl⟩
    obtain ⟨rfl, member⟩ := Ordered.key_of_find? found
    exact member
  · exact fun member => ⟨_, Ordered.find?_of_mem ascending member, rfl⟩

/-- A table as it is written leads from its own locators only. -/
theorem knows_iff {disk : Disk} (ascending : Ordered.Ascending Prod.fst names)
    (reads : disk.readText (namesFile target) = .ok (namesText names)) :
    Knows disk target locator ↔ ∃ name, (locator, name) ∈ names := by
  have loads : NativeRegistry.load disk (namesFile target) = .ok ⟨names, []⟩ := by
    unfold NativeRegistry.load
    rw [reads]
    simp only [NativeRegistry.namesOfText_namesText, Except.map, NativeRegistry.ofNames,
      Ordered.ofList_of_ascending ascending]
  unfold Knows
  rw [loads]
  simp only [Except.ok.injEq, exists_eq_left', Option.isSome_iff_exists, lookup_eq_some_iff ascending]

/-- Without a table no locator is known. -/
theorem not_knows {disk : Disk} (nothing : disk.entry? (namesFile target) = none) :
    ¬Knows disk target locator := by
  rintro ⟨registry, loads, _⟩
  unfold NativeRegistry.load Disk.readText at loads
  rw [nothing] at loads
  exact absurd loads (by simp)

theorem declares_nothing {disk : Disk} (nothing : disk.entry? (File.modules.path target) = none) :
    Declares disk target functions ↔ functions = [] := by
  unfold Declares Disk.readText
  simp [nothing]

theorem declares_written {disk : Disk}
    (reads : disk.readText (File.modules.path target) = .ok (modulesText latest)) :
    Declares disk target functions ↔ modulesText latest = modulesText functions := by
  unfold Declares
  simp [reads]

/-- A source that declares something is not empty. -/
theorem modulesText_ne_nil (some_ : latest ≠ []) : modulesText latest ≠ modulesText [] := by
  obtain ⟨first, rest, rfl⟩ := List.exists_cons_of_ne_nil some_
  intro same
  unfold modulesText at same
  rw [List.map_cons, String.join_cons, List.map_nil, String.join_nil, String.append_eq_empty_iff] at same
  have mark := (String.append_eq_empty_iff.1 same.1).2
  exact absurd mark (by decide)

/-! ## Runs without inserts -/

/-- Inserts that are collected add functions; where none are added nothing is written. -/
theorem addInserts_adds (ran : (addInserts target draft found).Yields before next after) :
    next.functions.length = draft.functions.length + found.length ∧ (found = [] → after = before) := by
  induction found generalizing draft before with
  | nil =>
    obtain ⟨rfl, rfl⟩ := Step.yields_pure.1 ran
    exact ⟨rfl, fun _ => rfl⟩
  | cons insert rest inductionHypothesis =>
    obtain ⟨middle, between, added, ran⟩ := Step.yields_bind.1 ran
    unfold addInsert at added
    obtain ⟨_, _, _, added⟩ := Step.yields_bind.1 added
    obtain ⟨_, _, _, added⟩ := Step.yields_bind.1 added
    obtain ⟨rfl, _⟩ := Step.yields_pure.1 added
    have length := (inductionHypothesis ran).1
    refine ⟨?_, by simp⟩
    simp only [List.length_append, List.length_singleton] at length
    rw [length, List.length_cons]
    omega

theorem collect_adds (ran : (collect target draft records).Yields before next after) :
    draft.functions.length ≤ next.functions.length ∧
      (next.functions.length = draft.functions.length → after = before) := by
  induction records generalizing draft before with
  | nil =>
    obtain ⟨rfl, rfl⟩ := Step.yields_pure.1 ran
    exact ⟨Nat.le_refl _, fun _ => rfl⟩
  | cons record rest inductionHypothesis =>
    unfold collect at ran
    cases optimized : record.optimized with
    | none =>
      rw [optimized] at ran
      exact inductionHypothesis ran
    | some path =>
      rw [optimized] at ran
      obtain ⟨_, _, loaded, ran⟩ := Step.yields_bind.1 ran
      obtain ⟨_, rfl⟩ := Step.yields_load.1 loaded
      obtain ⟨found, _, outcome, ran⟩ := Step.yields_bind.1 ran
      obtain ⟨_, rfl⟩ := Step.yields_ofOutcome.1 outcome
      obtain ⟨middle, between, added, ran⟩ := Step.yields_bind.1 ran
      obtain ⟨length, idle⟩ := addInserts_adds added
      obtain ⟨more, idleRest⟩ := inductionHypothesis ran
      refine ⟨by omega, fun same => ?_⟩
      have none : found = [] := List.eq_nil_of_length_eq_zero (by omega)
      rw [idleRest (by omega), idle none]

/-! ## Runs one after the other -/

/-- The tables of a target tell of a run with functions, or are not there when there were none. -/
structure Tell (target : Path) (present : Workspace) (functions : List String) : Prop where
  sound : present.disk.Sound
  nothing : functions = [] → present.disk.entry? (namesFile target) = none ∧
    present.disk.entry? (File.modules.path target) = none
  written : functions ≠ [] → ∃ names, names ≠ [] ∧ Ordered.Ascending Prod.fst names ∧
    present.disk.readText (namesFile target) = .ok (namesText names) ∧
    present.disk.readText (File.modules.path target) = .ok (modulesText functions)

/-- A target through runs, between which the catalog and all files but the table of names and the
source of the library may change.  `latest` holds the functions of the last run that found inserts. -/
inductive History (target : Path) : Workspace → List String → Prop
  | fresh {start : Workspace} : start.disk.Sound → start.disk.entry? (namesFile target) = none →
      start.disk.entry? (File.modules.path target) = none → History target start []
  | changed {before after : Workspace} {latest : List String} : History target before latest →
      after.disk.Sound →
      (∀ file ∈ [File.names, .modules],
        after.disk.entry? (file.path target) = before.disk.entry? (file.path target)) →
      History target after latest
  | ran {before after : Workspace} {latest : List String} {settings : Settings}
      {toolbox : Command.Toolbox} {wanted cancelled : Bool} {report : LibraryReport} :
      History target before latest → settings.target = target →
      (binarize settings toolbox wanted cancelled).Yields before report after →
      History target after (if report.functions = [] then latest else report.functions)

section Run

variable {settings : Settings} {toolbox : Command.Toolbox} {wanted cancelled : Bool}
  {report : LibraryReport}

/-- A run with inserts leaves the tables that tell of it. -/
theorem written_binarize (sound : before.disk.Sound)
    (ran : (binarize settings toolbox wanted cancelled).Yields before report after)
    (some_ : report.functions ≠ []) :
    after.disk.Sound ∧ ∃ inserts,
      Gathered settings.target before.disk before.foreign.records inserts ∧
      report.functions = (List.range inserts.length).map (functionName settings.target) ∧
      after.disk.readText (namesFile settings.target) =
        .ok (namesText (Ordered.ofList Prod.fst (table settings.target inserts))) ∧
      after.disk.readText (File.modules.path settings.target) = .ok (modulesText report.functions) := by
  obtain ⟨draft, present, collected, isReport, ⟨none, _⟩ | ⟨_, count, _, wrote⟩⟩ := yields_binarize ran
  · exact absurd (isReport.trans none) some_
  · obtain ⟨inserts, gathered, drafted⟩ := (Drafted.initial sound).collect collected
    rw [List.nil_append] at drafted
    obtain ⟨first, second, modules, manifest, names⟩ := wrote_common drafted.confined.sound wrote
    refine ⟨names.confined.sound, inserts, gathered, isReport.trans drafted.functions, ?_, ?_⟩
    · rw [← drafted.names]
      exact names.holds
    · rw [isReport]
      exact names.kept .modules _ (by simp) (manifest.kept .modules _ (by simp) modules.holds)

/-- A run without inserts leaves everything as it was. -/
theorem idle_binarize
    (ran : (binarize settings toolbox wanted cancelled).Yields before report after)
    (none : report.functions = []) : after = before := by
  obtain ⟨draft, present, collected, isReport, ⟨_, rfl⟩ | ⟨some_, _⟩⟩ := yields_binarize ran
  · apply (collect_adds collected).2
    rw [← isReport, none]
    rfl
  · exact absurd (isReport ▸ none) some_

/-- A table with inserts has entries, one for the locator of each. -/
theorem mem_table_iff :
    (∃ name, (locator, name) ∈ Ordered.ofList Prod.fst (table target inserts)) ↔
      ∃ insert ∈ inserts, insert.locator = locator := by
  constructor
  · rintro ⟨name, member⟩
    have listed := Ordered.mem_of_mem_ofList member
    unfold table at listed
    obtain ⟨number, bounded, same⟩ := List.mem_mapIdx.1 listed
    exact ⟨_, List.getElem_mem bounded, (Prod.mk.inj same).1⟩
  · rintro ⟨insert, member, rfl⟩
    have some_ : (inserts.reverse.find? fun other => other.locator == insert.locator).isSome := by
      rw [List.find?_isSome]
      exact ⟨insert, List.mem_reverse.2 member, by simp⟩
    obtain ⟨last, found⟩ := Option.isSome_iff_exists.1 some_
    obtain ⟨number, _, looked⟩ := lookup_table target found
    exact ⟨_, (lookup_eq_some_iff (Ordered.ascending_ofList _ _)).1 looked⟩

theorem Tell.run (tell : Tell settings.target before latest)
    (ran : (binarize settings toolbox wanted cancelled).Yields before report after) :
    Tell settings.target after (if report.functions = [] then latest else report.functions) := by
  by_cases none : report.functions = []
  · rw [if_pos none, idle_binarize ran none]
    exact tell
  · rw [if_neg none]
    obtain ⟨sound, inserts, _, isReport, names, modules⟩ := written_binarize tell.sound ran none
    refine ⟨sound, fun wrong => absurd wrong none, fun _ => ⟨_, ?_, Ordered.ascending_ofList _ _,
      names, modules⟩⟩
    have some_ : inserts ≠ [] := by
      rintro rfl
      exact none isReport
    obtain ⟨insert, member⟩ := List.exists_mem_of_ne_nil inserts some_
    obtain ⟨name, listed⟩ := mem_table_iff.2 ⟨insert, member, rfl⟩
    exact List.ne_nil_of_mem listed

theorem History.tell (history : History target present latest) : Tell target present latest := by
  induction history with
  | fresh sound names modules => exact ⟨sound, fun _ => ⟨names, modules⟩, fun wrong => absurd rfl wrong⟩
  | changed _ sound kept inductionHypothesis =>
    have names := kept .names (by simp)
    have modules := kept .modules (by simp)
    refine ⟨sound, fun none => ?_, fun some_ => ?_⟩
    · exact (inductionHypothesis.nothing none).imp names.trans modules.trans
    · obtain ⟨listed, notNil, ascending, readsNames, readsModules⟩ := inductionHypothesis.written some_
      exact ⟨listed, notNil, ascending, (Disk.readText_congr names).trans readsNames,
        (Disk.readText_congr modules).trans readsModules⟩
  | ran _ isTarget ran inductionHypothesis =>
    subst isTarget
    exact inductionHypothesis.run ran

/-- After a run the table knows the locator of every insert.  It knows no other locator, and the
source of the library declares the functions of the run and no others, exactly when the run
found inserts or no run before it did. -/
theorem tables_current_iff (history : History settings.target before latest)
    (ran : (binarize settings toolbox wanted cancelled).Yields before report after) :
    ∃ inserts, Gathered settings.target before.disk before.foreign.records inserts ∧
      report.functions = (List.range inserts.length).map (functionName settings.target) ∧
      (∀ insert ∈ inserts, Knows after.disk settings.target insert.locator) ∧
      ((∀ locator, Knows after.disk settings.target locator →
          ∃ insert ∈ inserts, insert.locator = locator) ∧
        Declares after.disk settings.target report.functions ↔
          report.functions ≠ [] ∨ latest = []) := by
  have tell := history.tell
  by_cases none : report.functions = []
  · obtain ⟨draft, between, collected, isReport, _⟩ := yields_binarize ran
    obtain ⟨inserts, gathered, drafted⟩ := (Drafted.initial tell.sound).collect collected
    rw [List.nil_append] at drafted
    have isFunctions := isReport.trans drafted.functions
    have isNil : inserts = [] := by
      rw [none] at isFunctions
      simpa using isFunctions.symm
    subst isNil
    refine ⟨[], gathered, isFunctions, by simp, ?_⟩
    rw [idle_binarize ran none, none]
    by_cases fresh : latest = []
    · obtain ⟨noTable, noSource⟩ := tell.nothing fresh
      simp only [declares_nothing noSource, fresh, or_true, and_true, iff_true]
      exact fun locator known => absurd known (not_knows noTable)
    · obtain ⟨names, some_, ascending, reads, readsModules⟩ := tell.written fresh
      rw [declares_written readsModules]
      simp only [fresh, ne_eq, not_true_eq_false, or_self, iff_false]
      exact fun both => absurd both.2 (modulesText_ne_nil fresh)
  · obtain ⟨_, inserts, gathered, isFunctions, names, modules⟩ := written_binarize tell.sound ran none
    have knows : ∀ locator, Knows after.disk settings.target locator ↔
        ∃ insert ∈ inserts, insert.locator = locator := fun locator =>
      (knows_iff (Ordered.ascending_ofList _ _) names).trans mem_table_iff
    refine ⟨inserts, gathered, isFunctions, fun insert member => (knows _).2 ⟨insert, member, rfl⟩, ?_⟩
    rw [declares_written modules]
    simp only [none, ne_eq, not_false_eq_true, true_or, iff_true, and_true]
    exact fun locator known => (knows locator).1 known

end Run

/-! ## Tables that outlive their inserts -/

/-- The optimized document of `p`, with an insert on line 2 and without it. -/
def insertText (present : Bool) : String :=
  "<program name=\x22p\x22><objects>"
    ++ (if present then "<o base=\x22org.eolang.rust\x22 line=\x222\x22><o>one</o></o>" else "")
    ++ "</objects></program>"

/-- A project with an insert. -/
def keptStart : Workspace :=
  { insertsStart with
    disk := ⟨[(["w"], .directory), (["w", "d.xmir"], .file (.text (insertText true)))], ["w"], []⟩ }

/-- The settings of the project. -/
def nativeSettings : Settings := { target := .ofText "t" }

/-- Collecting the inserts of a project. -/
def collected (start : Workspace) : Except Failure LibraryReport × Workspace :=
  (binarize nativeSettings (fun _ => none) false false).perform start

/-- The project after a run, when its document has no insert any more. -/
def emptiedStart : Workspace :=
  { (collected keptStart).2 with
    disk := (collected keptStart).2.disk.put ["w", "d.xmir"] (.file (.text (insertText false))) }

/-- What the two runs come to, and what the second one finds. -/
theorem collected_facts :
    ((collected keptStart).1 = .ok ⟨["t0"], 5, false⟩ ∧
      keptStart.disk.entry? (namesFile nativeSettings.target) = none ∧
      keptStart.disk.entry? (File.modules.path nativeSettings.target) = none) ∧
    (emptiedStart.disk.directoryAt emptiedStart.disk.current = true ∧
      (∀ other ∈ emptiedStart.disk.entries, emptiedStart.disk.directoryAt other.1.dropLast = true) ∧
      ∀ file ∈ [File.names, .modules], emptiedStart.disk.entry? (file.path nativeSettings.target) =
        (collected keptStart).2.disk.entry? (file.path nativeSettings.target)) ∧
    (collected emptiedStart).1 = .ok ⟨[], 0, false⟩ ∧
      (Document.load (collected emptiedStart).2.disk (.ofText "d.xmir")).bind Document.inserts =
        .ok [] ∧
      (collected emptiedStart).2.disk.readText (namesFile nativeSettings.target) =
        .ok (namesText [("p:2", "t0")]) ∧
      (collected emptiedStart).2.foreign.records =
        [{ Record.ofId "p" with optimized := some (.ofText "d.xmir") }] := by
  decide +kernel

theorem history_keptStart : History nativeSettings.target keptStart [] :=
  .fresh (Disk.sound_of_entries (by decide) (by decide)) collected_facts.1.2.1
    collected_facts.1.2.2

theorem keptRun_yields : (binarize nativeSettings (fun _ => none) false false).Yields
    keptStart ⟨["t0"], 5, false⟩ (collected keptStart).2 :=
  Step.yields_perform collected_facts.1.1

theorem emptiedRun_yields : (binarize nativeSettings (fun _ => none) false false).Yields
    emptiedStart ⟨[], 0, false⟩ (collected emptiedStart).2 :=
  Step.yields_perform collected_facts.2.2.1

theorem history_emptiedStart : History nativeSettings.target emptiedStart ["t0"] :=
  have ⟨current, parents, files⟩ := collected_facts.2.1
  .changed (.ran history_keptStart rfl keptRun_yields) (Disk.sound_of_entries current parents) files

/-- The tables are current after a first run with an insert, and not after a second one without. -/
theorem sample_tables : History nativeSettings.target keptStart [] ∧
    (binarize nativeSettings (fun _ => none) false false).Yields keptStart
      ⟨["t0"], 5, false⟩ (collected keptStart).2 ∧
    History nativeSettings.target emptiedStart ["t0"] ∧
    (binarize nativeSettings (fun _ => none) false false).Yields emptiedStart
      ⟨[], 0, false⟩ (collected emptiedStart).2 ∧
    Declares (collected keptStart).2.disk nativeSettings.target ["t0"] ∧
    ¬((∀ locator, ¬Knows (collected emptiedStart).2.disk nativeSettings.target locator) ∧
      Declares (collected emptiedStart).2.disk nativeSettings.target []) := by
  refine ⟨history_keptStart, keptRun_yields, history_emptiedStart, emptiedRun_yields, ?_, ?_⟩
  · obtain ⟨_, _, _, _, current⟩ := tables_current_iff history_keptStart keptRun_yields
    exact (current.2 (Or.inr rfl)).2
  · rintro ⟨unknown, declared⟩
    obtain ⟨_, _, _, _, current⟩ := tables_current_iff history_emptiedStart emptiedRun_yields
    have either := current.1 ⟨fun locator known => absurd known (unknown locator), declared⟩
    exact absurd either (by simp)

/-- The table of names can outlive an insert: a run without inserts leaves the last table. -/
theorem tables_outlived :
    ¬∀ (settings : Settings) (toolbox : Command.Toolbox) (wanted cancelled : Bool)
      (report : LibraryReport) (before after : Workspace) (latest : List String),
      History settings.target before latest →
      (binarize settings toolbox wanted cancelled).Yields before report after →
      (∀ locator, Knows after.disk settings.target locator →
        ∃ record ∈ after.foreign.records, ∃ path inserts, record.optimized = some path ∧
          (Document.load after.disk path).bind Document.inserts = .ok inserts ∧
          ∃ insert ∈ inserts, insert.locator = locator) ∧
      Declares after.disk settings.target report.functions := by
  intro current
  obtain ⟨_, _, _, reading, table, records⟩ := collected_facts
  have known : Knows (collected emptiedStart).2.disk nativeSettings.target "p:2" :=
    (knows_iff (List.pairwise_singleton _ _) table).2 ⟨"t0", by simp⟩
  obtain ⟨record, member, path, inserts, optimized, reads, insert, among, _⟩ :=
    (current _ _ _ _ _ _ _ _ history_emptiedStart emptiedRun_yields).1 "p:2" known
  rw [records, List.mem_singleton] at member
  rw [member] at optimized
  rw [← Option.some.inj optimized, reading] at reads
  rw [← Except.ok.inj reads] at among
  exact absurd among List.not_mem_nil

end EoAssembly.Native.Library
