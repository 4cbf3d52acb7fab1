import EoAssembly.Proofs.Build.Registering

/-!
Contract: a build computes what a project needs.

When the operations of a build of a fresh project succeed, the build ends after
two cycles more than references lead to the farthest object that is needed,
unless the cycles are bounded below that.  Its catalog then holds the objects that
are needed and no others, and the store was asked once for each of them that no
file registers.

Owns `Succeeds`, `Computed` and `assemble_closure`.
-/

namespace EoAssembly.Build

variable {settings : Settings} {remote : Remote} {start : Workspace} {depth : Nat}

/-- Every operation that a build starts succeeds: opening the catalogs, registering, and
all operations of each cycle. -/
def Succeeds (settings : Settings) (remote : Remote) (start : Workspace) : Prop :=
  ∃ opened count registered, (Workspace.reopen settings.target).Yields start () opened ∧
    (register settings).Yields opened count registered ∧
    CyclesSucceed settings remote settings.maxCycles registered

/-- What a build of a project comes to when the farthest object is at some distance. -/
structure Computed (settings : Settings) (remote : Remote) (start : Workspace) (depth : Nat)
    (answer : Assembly) (final : Workspace) : Prop where
  cycles : answer.cycles = depth + 2
  registered : answer.registered = (registeredFiles settings start.disk).length
  /-- The objects in the catalog are those that are needed. -/
  objects : ∀ id, id ∈ final.foreign.records.map Record.id ↔
    IsNeeded settings remote start.disk id
  distinct : (final.foreign.records.map Record.id).Nodup
  number : answer.objects = final.foreign.records.length
  /-- The documents on the disk refer to what makes objects needed. -/
  documents : ∀ id, IsNeeded settings remote start.disk id →
    namesIn final.disk (optimizedPlace settings.target id) =
      .ok (references settings remote start.disk id)
  /-- The store was asked once for each object that no file registers. -/
  fetched : ∃ asked, sourcesAsked final.journal = sourcesAsked start.journal ++ asked ∧
    asked.Nodup ∧ answer.pulled = asked.length ∧
    ∀ id, id ∈ asked ↔ IsNeeded settings remote start.disk id ∧
      id ∉ registeredIds settings start.disk

theorem Recorded.mem_ids {disk : Disk} {front : Front} {catalog : Catalog} {id : String}
    (recorded : Recorded settings disk front catalog) :
    id ∈ catalog.records.map Record.id ↔ (front id).known := by
  rw [← recorded.known, List.mem_map]
  constructor
  · rintro ⟨record, member, rfl⟩
    exact ⟨record, Catalog.find?_of_mem recorded.sorted member⟩
  · rintro ⟨record, found⟩
    exact ⟨record, Catalog.mem_of_find? found, Catalog.id_of_find? found⟩

/-- A project whose cycles all ran is computed. -/
theorem Progress.computed {answer : Assembly} {final : Workspace} {asked : List String}
    (isDepth : IsDepth (registeredIds settings start.disk) (references settings remote start.disk)
      depth)
    (progress : Progress settings remote start (frontAt settings remote start.disk (depth + 2))
      asked final)
    (cycles : answer.cycles = depth + 2)
    (registered : answer.registered = (registeredFiles settings start.disk).length)
    (number : answer.objects = final.foreign.records.length)
    (pulled : answer.pulled = asked.length) :
    Computed settings remote start depth answer final where
  cycles := cycles
  registered := registered
  objects id := progress.recorded.mem_ids.trans (isDepth.needed_iff (by omega))
  distinct := Catalog.Sorted.nodup_ids progress.recorded.sorted
  number := number
  documents id needed := by
    have nearer : Within (registeredIds settings start.disk)
        (references settings remote start.disk) (depth + 1) id :=
      (isDepth.needed_iff (by omega)).2 needed
    have sourced : (frontAt settings remote start.disk (depth + 2) id).sourced :=
      (isDepth.needed_iff (by omega)).2 needed
    obtain ⟨text, names, isText, reads⟩ := progress.readable id nearer
    obtain ⟨written, isWritten, same⟩ :=
      namesIn_optimized progress.filed needed (progress.placeable id sourced) nearer
    rw [isWritten] at isText
    rw [same, Except.ok.inj isText, reads, references_of_text (isWritten.trans isText) reads]
  fetched := by
    refine ⟨asked, progress.asked.journal, progress.asked.distinct, pulled, fun id => ?_⟩
    rw [progress.asked.sourced]
    exact and_congr_left' (isDepth.needed_iff (by omega))

/-- An assembly whose catalogs open and whose files are registered ends as its cycles do. -/
theorem assemble_yields {opened registered final : Workspace} {count : Nat} {answer : Assembly}
    (ranOpen : (Workspace.reopen settings.target).Yields start () opened)
    (ranRegister : (register settings).Yields opened count registered) :
    (assemble settings remote).Yields start answer final ↔ ∃ ended,
      (settle settings remote settings.maxCycles).Yields registered ended final ∧
        answer = ⟨count, ended.1, ended.2, final.foreign.size⟩ := by
  rw [yields_assemble]
  constructor
  · rintro ⟨_, _, ran, ranFiles, settled, isSize⟩
    rw [(ran.unique ranOpen).2] at ranFiles
    obtain ⟨rfl, rfl⟩ := ranFiles.unique ranRegister
    exact ⟨_, settled, by rw [← isSize]⟩
  · rintro ⟨ended, settled, rfl⟩
    exact ⟨opened, registered, ranOpen, ranRegister, settled, rfl⟩

/-- A build of a fresh project computes the objects that it needs, in two cycles more than
references lead to the farthest of them. -/
theorem assemble_closure (project : Project settings remote start.disk)
    (finite : ∃ all : List String, ∀ id, IsNeeded settings remote start.disk id → id ∈ all)
    (succeeds : Succeeds settings remote start) :
    (∃ depth, IsDepth (registeredIds settings start.disk)
      (references settings remote start.disk) depth) ∧
    ∀ depth, IsDepth (registeredIds settings start.disk)
        (references settings remote start.disk) depth →
      ((∃ answer final, (assemble settings remote).Yields start answer final) ↔
        depth + 2 ≤ settings.maxCycles) ∧
      ∀ answer final, (assemble settings remote).Yields start answer final →
        Computed settings remote start depth answer final := by
  obtain ⟨opened, count, registered, ranOpen, ranRegister, cycles⟩ := succeeds
  obtain ⟨scene, isCount, first⟩ := project.register ranOpen ranRegister
  constructor
  · obtain ⟨all, inAll⟩ := finite
    obtain ⟨file, member⟩ := List.exists_mem_of_ne_nil _ project.registers
    have root : idOf file ∈ registeredIds settings start.disk := List.mem_map_of_mem member
    exact exists_depth root inAll
  · intro depth isDepth
    obtain ⟨ends, answers⟩ := first.settle scene isDepth (Nat.zero_le _) cycles
    constructor
    · refine Iff.trans ?_ ends
      constructor
      · rintro ⟨answer, final, ran⟩
        obtain ⟨ended, settled, _⟩ := (assemble_yields ranOpen ranRegister).1 ran
        exact ⟨ended, final, settled⟩
      · rintro ⟨ended, final, settled⟩
        exact ⟨_, final, (assemble_yields ranOpen ranRegister).2 ⟨ended, settled, rfl⟩⟩
    · intro answer final ran
      obtain ⟨ended, settled, rfl⟩ := (assemble_yields ranOpen ranRegister).1 ran
      obtain ⟨isCycles, asked, progress, isPulled⟩ := answers ended final settled
      refine progress.computed isDepth isCycles isCount rfl ?_
      rw [isPulled, List.length_nil, Nat.zero_add]

/-! ## A closed project -/

theorem cyclesSucceed_of_yields {bound : Nat} {before final : Workspace} {answer : Nat × Nat}
    (ran : (settle settings remote bound).Yields before answer final) :
    CyclesSucceed settings remote bound before := by
  induction bound generalizing before answer with
  | zero => exact trivial
  | succ left inductionHypothesis =>
    obtain ⟨fetched, after, ranCycle, rest⟩ := yields_settle.1 ran
    refine ⟨fetched, after, ranCycle, fun changed => ?_⟩
    rcases rest with ⟨same, _⟩ | ⟨_, others, ranRest, _⟩
    · exact absurd same changed
    · exact inductionHypothesis ranRest

/-- All operations of an assembly that ends well succeed. -/
theorem succeeds_of_yields {answer : Assembly} {final : Workspace}
    (ran : (assemble settings remote).Yields start answer final) :
    Succeeds settings remote start := by
  obtain ⟨opened, registered, ranOpen, ranRegister, settled, _⟩ := yields_assemble.1 ran
  exact ⟨opened, _, registered, ranOpen, ranRegister, cyclesSucceed_of_yields settled⟩

/-- The references in the project with one source. -/
theorem sample_references : registeredFiles sampleSettings sampleStart.disk = [⟨["a.eo"]⟩] ∧
    registeredIds sampleSettings sampleStart.disk = ["a"] ∧
    references sampleSettings sampleRemote sampleStart.disk "a" = ["org.eolang.b"] ∧
    references sampleSettings sampleRemote sampleStart.disk "org.eolang.b" = [] := by
  decide +kernel

theorem sample_needed {id : String}
    (needed : IsNeeded sampleSettings sampleRemote sampleStart.disk id) :
    id = "a" ∨ id = "org.eolang.b" := by
  obtain ⟨_, roots, first, second⟩ := sample_references
  refine needed.least (fun id => id = "a" ∨ id = "org.eolang.b") (fun other member => ?_)
    fun other among name member => ?_
  · rw [roots] at member
    exact Or.inl (List.mem_singleton.1 member)
  · rcases among with isFirst | isSecond
    · rw [isFirst, first] at member
      exact Or.inr (List.mem_singleton.1 member)
    · rw [isSecond, second] at member
      exact absurd member (by simp)

theorem sample_depth : IsDepth (registeredIds sampleSettings sampleStart.disk)
    (references sampleSettings sampleRemote sampleStart.disk) 1 := by
  obtain ⟨_, roots, first, _⟩ := sample_references
  have root : "a" ∈ registeredIds sampleSettings sampleStart.disk := by
    rw [roots]
    exact List.mem_singleton_self _
  have referred : "org.eolang.b" ∈
      references sampleSettings sampleRemote sampleStart.disk "a" := by
    rw [first]
    exact List.mem_singleton_self _
  have second := Reaches.refers (.root root) referred
  refine ⟨fun id needed => ?_, "org.eolang.b", second, fun other reaches => ?_⟩
  · rcases sample_needed needed with isFirst | isSecond
    · rw [isFirst]
      exact ⟨0, by decide, .root root⟩
    · rw [isSecond]
      exact ⟨1, by decide, second⟩
  · cases reaches with
    | root member =>
      rw [roots] at member
      exact absurd member (by decide)
    | refers _ _ => exact Nat.succ_le_succ (Nat.zero_le _)

theorem sample_project : Project sampleSettings sampleRemote sampleStart.disk where
  sound := Disk.sound_of_entries (by decide) (by decide)
  named := by decide
  written := by decide
  strict := rfl
  keeps := rfl
  store := ⟨_, rfl⟩
  separate := ⟨by decide, by decide, by decide, by decide, by decide, by decide, by decide,
    by decide⟩
  apart shelf id other on onOther different _ _ := by
    obtain ⟨_, roots, _⟩ := sample_references
    have apart : ∀ shelf : Shelf,
        (shelf.file sampleSettings "a").goal ["w"] ∉
          (shelf.file sampleSettings "org.eolang.b").way ["w"] ∧
        (shelf.file sampleSettings "org.eolang.b").goal ["w"] ∉
          (shelf.file sampleSettings "a").way ["w"] := by
      intro shelf
      cases shelf <;> decide
    have needed : ∀ {id}, OnShelf sampleSettings sampleRemote sampleStart.disk shelf id →
        id = "a" ∨ id = "org.eolang.b" := by
      intro id on
      cases shelf with
      | parsed => exact sample_needed on
      | optimized => exact sample_needed on
      | pulled => exact sample_needed on.1
      | logs => exact sample_needed on.1
      | sources => exact on.elim
    rcases needed on with rfl | rfl
    · rcases needed onOther with rfl | rfl
      · exact absurd rfl different
      · exact (apart shelf).1
    · rcases needed onOther with rfl | rfl
      · exact (apart shelf).2
      · exact absurd rfl different
  freshTarget := nothingBelow_of_entries (by decide) (by decide)
  freshProtocols := nothingBelow_of_entries (by decide) (by decide)
  registers := by
    rw [sample_references.1]
    simp

theorem sample_closure : Project sampleSettings sampleRemote sampleStart.disk ∧
    Succeeds sampleSettings sampleRemote sampleStart ∧
    Computed sampleSettings sampleRemote sampleStart 1 ⟨1, 3, 1, 2⟩ sampleRun.2 := by
  have ran : (assemble sampleSettings sampleRemote).Yields sampleStart ⟨1, 3, 1, 2⟩ sampleRun.2 :=
    Step.yields_perform sampleRun_facts.1
  have finite : ∃ all : List String, ∀ id,
      IsNeeded sampleSettings sampleRemote sampleStart.disk id → id ∈ all :=
    ⟨["a", "org.eolang.b"], fun id needed => by simpa using sample_needed needed⟩
  have succeeds := succeeds_of_yields ran
  obtain ⟨_, closed⟩ := assemble_closure sample_project finite succeeds
  exact ⟨sample_project, succeeds, (closed 1 sample_depth).2 _ _ ran⟩

end EoAssembly.Build
