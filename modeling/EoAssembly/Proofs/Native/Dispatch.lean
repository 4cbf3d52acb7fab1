import EoAssembly.Native.Registry
import EoAssembly.Proofs.Json.RoundTrip
import EoAssembly.Proofs.Native.Generated

/-!
Contract: what a call at the locator of a native insert runs.

The table of names is a map, so of all inserts with one locator the last one is found.  A
call runs its function, whose files hold its code; the code of an insert is reached
exactly when the last insert with its locator has the same code.

Owns `NativeRegistry.filled`, `Library.Runs`, and this law.
-/

namespace EoAssembly

open Native

namespace NativeRegistry

variable {registry : NativeRegistry} {names pairs : List (String × String)} {functions : List String}
  {locator name : String} {give : String → NativeFunction}

/-! ## The table of names -/

theorem lookup_eq (locator : String) (pairs : List (String × String)) :
    pairs.lookup locator = (Ordered.find? Prod.fst locator pairs).map Prod.snd := by
  unfold Ordered.find?
  induction pairs with
  | nil => rfl
  | cons first rest inductionHypothesis =>
    rw [List.lookup_cons, List.find?_cons, inductionHypothesis]
    by_cases same : first.1 = locator
    · simp [same]
    · rw [beq_eq_false_iff_ne.2 same, beq_eq_false_iff_ne.2 (Ne.symm same)]

theorem textMembers?_map (names : List (String × String)) :
    textMembers? (names.map fun pair => (pair.1, Json.Value.string pair.2)) = some names := by
  induction names with
  | nil => rfl
  | cons first rest inductionHypothesis =>
    rw [List.map_cons, textMembers?, inductionHypothesis]
    rfl

theorem faithful_members (names : List (String × String)) :
    Json.FaithfulMembers (names.map fun pair => (pair.1, Json.Value.string pair.2)) := by
  induction names with
  | nil => trivial
  | cons first rest inductionHypothesis => exact ⟨trivial, inductionHypothesis⟩

/-- A table reads back as it was written. -/
theorem namesOfText_namesText (names : List (String × String)) :
    namesOfText (Library.namesText names) = .ok names := by
  have faithful : (Json.Value.object (names.map fun pair => (pair.1, .string pair.2))).Faithful := by
    unfold Json.Value.Faithful
    exact faithful_members names
  unfold namesOfText Library.namesText
  rw [Json.Value.ofText?_render faithful]
  simp only [textMembers?_map]

/-! ## Registered functions -/

/-- A registry with functions registered under names. -/
def filled (registry : NativeRegistry) (functions : List String) (give : String → NativeFunction) :
    NativeRegistry :=
  functions.foldl (fun registry name => registry.register name (give name)) registry

theorem filled_concat (name : String) : registry.filled (functions ++ [name]) give =
    (registry.filled functions give).register name (give name) := by
  simp [filled]

@[simp] theorem names_filled : (registry.filled functions give).names = registry.names := by
  induction functions using List.reverseRecOn with
  | nil => rfl
  | append_singleton front last inductionHypothesis =>
    rw [filled_concat]
    exact inductionHypothesis

/-- A name that a function is registered under finds it. -/
theorem lookup_filled (member : name ∈ functions) :
    (registry.filled functions give).functions.lookup name = some (give name) := by
  induction functions using List.reverseRecOn with
  | nil => exact absurd member List.not_mem_nil
  | append_singleton front last inductionHypothesis =>
    rw [filled_concat]
    unfold register
    rw [List.lookup_cons]
    by_cases same : name = last
    · rw [same, beq_self_eq_true]
    · have earlier : name ∈ front :=
        (List.mem_append.1 member).resolve_right fun wrong => same (List.mem_singleton.1 wrong)
      rw [beq_eq_false_iff_ne.2 same]
      exact inductionHypothesis earlier

/-- A locator in the table comes to the function of its name. -/
theorem resolve_filled (found : registry.names.lookup locator = some name) (member : name ∈ functions) :
    (registry.filled functions give).resolve locator = .ok (give name) := by
  unfold resolve
  rw [names_filled, found, Option.bind_some, lookup_filled member]

end NativeRegistry

namespace Native.Library

open Document (Insert)

variable {target : Path} {start after : Workspace} {draft : Draft} {inserts : List Insert}
  {insert last : Insert} {locator code name : String} {registry : NativeRegistry}

/-- Calls at a locator run a code: whatever functions are registered, they come to the one of a
name whose files hold that code. -/
def Runs (target : Path) (disk : Disk) (registry : NativeRegistry) (functions : List String)
    (locator code : String) : Prop :=
  ∃ number, functionName target number ∈ functions ∧
    (∀ give, (registry.filled functions give).resolve locator =
      .ok (give (functionName target number))) ∧
    disk.readText ((File.code number).path target) = .ok code ∧
    disk.readText ((File.source number).path target) = .ok code

/-- Calls at a locator run one code. -/
theorem Runs.unique {disk : Disk} {functions : List String} {other : String}
    (runs : Runs target disk registry functions locator code)
    (again : Runs target disk registry functions locator other) : code = other := by
  obtain ⟨number, _, resolves, isCode, _⟩ := runs
  obtain ⟨twin, _, resolvesTwin, isOther, _⟩ := again
  -- functions that tell the names apart show that both are one
  have told := (resolves fun name _ => if name = functionName target number then [1] else []).symm.trans
    (resolvesTwin fun name _ => if name = functionName target number then [1] else [])
  have same : functionName target twin = functionName target number := by
    by_contra different
    have wrong := congrFun (Except.ok.inj told) []
    rw [if_pos rfl, if_neg different] at wrong
    exact absurd wrong (by simp)
  rw [functionName_inj same] at isOther
  exact Except.ok.inj (isCode.symm.trans isOther)

/-- The last insert with a locator has a number, and the table gives its function. -/
theorem lookup_table (target : Path)
    (found : inserts.reverse.find? (fun other => other.locator == locator) = some last) :
    ∃ number, inserts[number]? = some last ∧
      (Ordered.ofList Prod.fst (table target inserts)).lookup locator =
        some (functionName target number) := by
  rw [NativeRegistry.lookup_eq, Ordered.find?_ofList]
  induction inserts using List.reverseRecOn with
  | nil => exact absurd found (by simp)
  | append_singleton front insert inductionHypothesis =>
    have step : table target (front ++ [insert]) =
        table target front ++ [(insert.locator, functionName target front.length)] := by
      simp [table, List.mapIdx_append]
    rw [step, List.reverse_append, List.reverse_singleton, List.singleton_append, List.find?_cons]
    rw [List.reverse_append, List.reverse_singleton, List.singleton_append, List.find?_cons] at found
    cases here : insert.locator == locator with
    | true =>
      rw [here] at found
      refine ⟨front.length, ?_, rfl⟩
      rw [← Option.some.inj found]
      simp
    | false =>
      rw [here] at found
      obtain ⟨number, reads, looked⟩ := inductionHypothesis found
      refine ⟨number, ?_, looked⟩
      rw [List.getElem?_append_left (List.getElem?_eq_some_iff.1 reads).1, reads]

/-- A call at the locator of an insert runs the code of the last insert with that locator. -/
theorem Drafted.runs (drafted : Drafted target start after draft inserts)
    (names : registry.names = draft.names)
    (found : inserts.reverse.find? (fun other => other.locator == locator) = some last) :
    Runs target after.disk registry draft.functions locator last.code := by
  obtain ⟨number, reads, looked⟩ := lookup_table target found
  have member : functionName target number ∈ draft.functions := by
    rw [drafted.functions]
    exact List.mem_map_of_mem (List.mem_range.2 (List.getElem?_eq_some_iff.1 reads).1)
  refine ⟨number, member, fun give => ?_, drafted.codes number last reads⟩
  apply NativeRegistry.resolve_filled _ member
  rw [names, drafted.names, looked]

/-- Once inserts were collected the table of names reads back, and a call at the locator of an
insert runs exactly the code of the last insert with that locator.  So an insert is reached unless
a later one with its locator has another code. -/
theorem insert_runs_iff {settings : Settings} {toolbox : Command.Toolbox} {wanted cancelled : Bool}
    {report : LibraryReport} {before : Workspace} (sound : before.disk.Sound)
    (ran : (binarize settings toolbox wanted cancelled).Yields before report after)
    (some_ : report.functions ≠ []) :
    ∃ inserts registry, Gathered settings.target before.disk before.foreign.records inserts ∧
      report.functions.length = inserts.length ∧
      NativeRegistry.load after.disk (namesFile settings.target) = .ok registry ∧
      ∀ insert ∈ inserts, ∀ code,
        Runs settings.target after.disk registry report.functions insert.locator code ↔
          (inserts.reverse.find? fun other => other.locator == insert.locator).map Insert.code =
            some code := by
  obtain ⟨draft, inserts, gathered, drafted, isReport, table⟩ := drafted_binarize sound ran some_
  have ascending : Ordered.Ascending Prod.fst draft.names := by
    rw [drafted.names]
    exact Ordered.ascending_ofList _ _
  have loads : NativeRegistry.load after.disk (namesFile settings.target) =
      .ok ⟨draft.names, []⟩ := by
    unfold NativeRegistry.load
    rw [table]
    simp only [NativeRegistry.namesOfText_namesText, Except.map, NativeRegistry.ofNames,
      Ordered.ofList_of_ascending ascending]
  refine ⟨inserts, _, gathered, ?_, loads, fun insert member code => ?_⟩
  · rw [isReport, drafted.functions, List.length_map, List.length_range]
  · have some_ : (inserts.reverse.find? fun other => other.locator == insert.locator).isSome := by
      rw [List.find?_isSome]
      exact ⟨insert, List.mem_reverse.2 member, by simp⟩
    obtain ⟨last, found⟩ := Option.isSome_iff_exists.1 some_
    rw [found, Option.map_some, Option.some.injEq, isReport]
    have runs : Runs settings.target after.disk ⟨draft.names, []⟩ draft.functions insert.locator
        last.code := drafted.runs rfl found
    exact ⟨fun again => runs.unique again, fun same => same ▸ runs⟩

/-! ## A shadowed insert -/

/-- The optimized document of `p`, with three inserts, two of them on one line. -/
def insertsText : String :=
  "<program name=\x22p\x22><objects>"
    ++ "<o base=\x22org.eolang.rust\x22 line=\x222\x22><o>one</o></o>"
    ++ "<o base=\x22org.eolang.rust\x22 line=\x223\x22><o>two</o></o>"
    ++ "<o base=\x22org.eolang.rust\x22 line=\x223\x22><o>three</o></o>"
    ++ "</objects></program>"

/-- A project with this document. -/
def insertsStart : Workspace where
  disk := ⟨[(["w"], .directory), (["w", "d.xmir"], .file (.text insertsText))], ["w"], []⟩
  foreign := ⟨.ofText "t/eo-foreign.json",
    [{ Record.ofId "p" with optimized := some (.ofText "d.xmir") }]⟩
  external := ⟨.ofText "", []⟩
  slot := .empty
  journal := []
  instant := ""

/-- What collecting the inserts of the project comes to. -/
def insertsRun : Except Failure LibraryReport × Workspace :=
  (binarize { target := .ofText "t" } (fun _ => none) false false).perform insertsStart

/-- The inserts of the document. -/
def sampleInserts : List Insert := [⟨"p:2", "one", []⟩, ⟨"p:3", "two", []⟩, ⟨"p:3", "three", []⟩]

theorem insertsRun_facts : insertsRun.1 = .ok ⟨["t0", "t1", "t2"], 9, false⟩ ∧
    (Document.load insertsStart.disk (.ofText "d.xmir")).bind Document.inserts = .ok sampleInserts := by
  decide +kernel

theorem insertsRun_yields : (binarize { target := .ofText "t" } (fun _ => none) false false).Yields
    insertsStart ⟨["t0", "t1", "t2"], 9, false⟩ insertsRun.2 :=
  Step.yields_perform insertsRun_facts.1

theorem sound_insertsStart : insertsStart.disk.Sound :=
  Disk.sound_of_entries (by decide) (by decide)

/-- The document has no place among the generated files, so its inserts are gathered. -/
theorem gathered_sample {inserts : List Insert}
    (gathered : Gathered (.ofText "t") insertsStart.disk insertsStart.foreign.records inserts) :
    inserts = sampleInserts := by
  obtain ⟨parts, each, rfl⟩ := gathered
  obtain ⟨part, _, here, none, rfl⟩ := List.forall₂_cons_left_iff.1 each
  rw [List.forall₂_nil_left_iff.1 none]
  obtain ⟨disk, document, confined, reads, isPart⟩ := here
  have ofSample := insertsRun_facts.2
  cases loads : Document.load insertsStart.disk (.ofText "d.xmir") with
  | error failure =>
    rw [loads] at ofSample
    exact absurd ofSample (by simp [Except.bind])
  | ok first =>
    rw [loads] at ofSample
    have apart : ¬Generated (.ofText "t") ["w"] ((Path.ofText "d.xmir").goal ["w"]) := by
      rintro ⟨file, same⟩
      rw [File.goal_path] at same
      have named : (Path.ofText "d.xmir").goal ["w"] = ["w"] ++ ["d.xmir"] := by decide
      have target : (Path.ofText "t").goal ["w"] = ["w"] ++ ["t"] := by decide
      rw [named, target, List.append_assoc] at same
      exact absurd (List.cons.inj (List.append_cancel_left same)).1 (by decide)
    have way : ∀ passed ∈ (Path.ofText "d.xmir").left ["w"], ¬Generated (.ofText "t") ["w"] passed := by
      intro passed member
      have straight : (Path.ofText "d.xmir").left ["w"] = [] := by decide
      rw [straight] at member
      exact absurd member List.not_mem_nil
    have same := load_apart confined apart way loads
    rw [same] at reads
    have isSample : Document.inserts first = .ok sampleInserts := ofSample
    rw [Except.ok.inj reads, isPart] at isSample
    rw [Except.ok.inj isSample]
    simp

/-- The first insert of the document is reached, and the second is shadowed by the third. -/
theorem sample_runs : insertsStart.disk.Sound ∧
    (binarize { target := .ofText "t" } (fun _ => none) false false).Yields insertsStart
      ⟨["t0", "t1", "t2"], 9, false⟩ insertsRun.2 ∧
    ∃ registry, NativeRegistry.load insertsRun.2.disk (namesFile (.ofText "t")) = .ok registry ∧
      Runs (.ofText "t") insertsRun.2.disk registry ["t0", "t1", "t2"] "p:2" "one" ∧
      ¬Runs (.ofText "t") insertsRun.2.disk registry ["t0", "t1", "t2"] "p:3" "two" := by
  obtain ⟨inserts, registry, gathered, _, loads, runs⟩ :=
    insert_runs_iff sound_insertsStart insertsRun_yields (by simp)
  obtain rfl := gathered_sample gathered
  refine ⟨sound_insertsStart, insertsRun_yields, registry, loads, ?_, ?_⟩
  · exact (runs ⟨"p:2", "one", []⟩ (by decide) "one").2 (by decide)
  · exact fun reached => absurd ((runs ⟨"p:3", "two", []⟩ (by decide) "two").1 reached) (by decide)

/-- Not every insert is reached: two inserts of one line have one locator. -/
theorem insert_shadowed :
    ¬∀ (settings : Settings) (toolbox : Command.Toolbox) (wanted cancelled : Bool)
      (report : LibraryReport) (before after : Workspace), before.disk.Sound →
      (binarize settings toolbox wanted cancelled).Yields before report after →
      report.functions ≠ [] →
      ∃ registry, NativeRegistry.load after.disk (namesFile settings.target) = .ok registry ∧
        ∀ record ∈ before.foreign.records, ∀ path inserts, record.optimized = some path →
          (Document.load before.disk path).bind Document.inserts = .ok inserts →
          ∀ insert ∈ inserts,
            Runs settings.target after.disk registry report.functions insert.locator insert.code := by
  intro reached
  obtain ⟨registry, _, runs⟩ := reached _ _ _ _ _ _ _ sound_insertsStart insertsRun_yields (by simp)
  have ofSample := runs _ List.mem_cons_self (.ofText "d.xmir") sampleInserts rfl insertsRun_facts.2
  have second := ofSample ⟨"p:3", "two", []⟩ (by decide)
  have third := ofSample ⟨"p:3", "three", []⟩ (by decide)
  exact absurd (second.unique third) (by decide)

end Native.Library

end EoAssembly
