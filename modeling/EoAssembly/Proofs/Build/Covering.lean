import EoAssembly.Proofs.Build.Levels
import EoAssembly.Proofs.Build.Successive

/-!
Contract: how far a build on a site comes with each cycle, wherever it began.

A cycle goes one reference further: what had a source is looked through, and what that refers
to gets a source.  So a build that settles has finished every object that references lead to.
On flawless grounds no cycle stops, and a build settles within the cycles that the farthest
object takes, whether it starts afresh or takes up the work of another one.

Owns `Site.Follows`, `Site.Covers`, what a settled build covers, and that builds settle on
flawless grounds.

Does not own: that grounds are flawless.
-/

namespace EoAssembly.Build

/-! ## What a stage marks -/

section Marks

variable {settings : Settings} {remote : Remote} {before after : Workspace} {id : String} {count : Nat}

/-- Parsing leaves a document of every object that had a source. -/
theorem parseAll_marks (sorted : before.foreign.Sorted)
    (ran : (parseAll settings remote).Yields before count after)
    (sourced : Marked (fun record => record.source.isSome) before.foreign id) :
    Marked (fun record => record.xmir.isSome) after.foreign id := by
  have grown := (growsFrom_invariant remote before.foreign).upkeep.parseAll before _ after
    ⟨sorted, .refl _⟩ ran
  have ranEach := (yields_parseAll.1 ran).2
  obtain ⟨record, found, isSome⟩ := sourced
  cases parsed : record.xmir with
  | some path =>
    have marked : Marked (fun record => record.xmir.isSome) before.foreign id :=
      ⟨record, found, by simp [parsed]⟩
    exact marked.later Record.Within.xmir grown.2
  | none =>
    refine parseEach_marks sorted ranEach id ?_
    rw [← Catalog.id_of_find? found]
    exact List.mem_map_of_mem (List.mem_filter.2 ⟨Catalog.mem_of_find? found, by
      simp [awaitsParse, isSome, parsed]⟩)

/-- Optimizing leaves an optimized document of every object that had a document. -/
theorem optimizeAll_marks (remote : Remote) {target : Path} (sorted : before.foreign.Sorted)
    (ran : (optimizeAll target).Yields before count after)
    (parsed : Marked (fun record => record.xmir.isSome) before.foreign id) :
    Marked (fun record => record.optimized.isSome) after.foreign id := by
  have grown := (growsFrom_invariant remote before.foreign).upkeep.optimizeAll target before _ after
    ⟨sorted, .refl _⟩ ran
  obtain ⟨done, between, ranEach, recorded, _⟩ := yields_optimizeAll.1 ran
  obtain ⟨record, found, isSome⟩ := parsed
  cases optimized : record.optimized with
  | some path =>
    have marked : Marked (fun record => record.optimized.isSome) before.foreign id :=
      ⟨record, found, by simp [optimized]⟩
    exact marked.later Record.Within.optimized grown.2
  | none =>
    obtain ⟨path, isPath⟩ := Option.isSome_iff_exists.1 isSome
    have pending : id ∈ (unoptimized before.foreign).map Prod.fst := by
      rw [← Catalog.id_of_find? found]
      exact List.mem_map.2 ⟨(record.id, path), List.mem_filterMap.2 ⟨record,
        Catalog.mem_of_find? found, by simp [awaitsOptimize, optimized, isPath]⟩, rfl⟩
    rw [← optimizeEach_ids ranEach] at pending
    obtain ⟨item, member, rfl⟩ := List.mem_map.1 pending
    have sortedBetween := ((growsFrom_invariant remote before.foreign).upkeep.optimizeEach target _
      before done between ⟨sorted, .refl _⟩ ranEach).1
    exact recordOptimized_marks remote sortedBetween recorded item member

/-- Discovering looks through the optimized document of every object that had one. -/
theorem discoverAll_marks (remote : Remote) (sorted : before.foreign.Sorted)
    (ran : discoverAll.Yields before count after)
    (optimized : Marked (fun record => record.optimized.isSome) before.foreign id) :
    Marked (fun record => record.discovered.isSome) after.foreign id := by
  have grown := (growsFrom_invariant remote before.foreign).upkeep.discoverAll before _ after
    ⟨sorted, .refl _⟩ ran
  have ranEach := yields_discoverAll.1 ran
  obtain ⟨record, found, isSome⟩ := optimized
  cases discovered : record.discovered with
  | some count =>
    have marked : Marked (fun record => record.discovered.isSome) before.foreign id :=
      ⟨record, found, by simp [discovered]⟩
    exact marked.later Record.Within.discovered grown.2
  | none =>
    rw [← Catalog.id_of_find? found]
    exact discoverEach_marks remote sorted ranEach record
      (List.mem_filter.2 ⟨Catalog.mem_of_find? found, by simp [discovered]⟩) isSome

end Marks

namespace Site

variable {site : Site} {refers : String → List String} {settings : Settings} {remote : Remote}
  {enrolled : Prop} {present before after : Workspace} {level depth : Nat} {id name : String}

/-! ## References -/

/-- References are those of a site when the optimized document of an object that may come up
refers to them, whichever text its source holds. -/
def Follows (site : Site) (refers : String → List String) : Prop :=
  ∀ id source text made names, site.involved id → site.SourceText id source →
    documentText site.settings site.parse id source = .ok text →
    madeText site.settings Pass.all id text = .ok made →
    namesOfText (site.place .optimized id) made = .ok names → names = refers id

/-- The objects that the files of a project register. -/
def roots (site : Site) : List String := site.files.map idOf

/-- An object that was looked through counts its references, and they are pulled. -/
theorem Working.referring (follows : site.Follows refers) (working : site.Working enrolled present)
    {record : Record} (found : present.foreign.find? id = some record)
    (discovered : record.discovered.isSome = true) :
    record.discovered = some (refers id).length ∧
      ∀ name ∈ refers id, name ∈ referredNames present.disk present.foreign := by
  have fits := working.tells.found found
  obtain ⟨count, isCount⟩ := Option.isSome_iff_exists.1 discovered
  obtain ⟨isOptimized, made, names, holds, reads, counted, _⟩ := fits.discovered count isCount
  have live := fits.live (fits.sourced_of_parsed (fits.parsed_of_optimized isOptimized))
  obtain ⟨⟨text, result, holdsText, isMade, same⟩, _⟩ :=
    working.laid.permits _ _ _ live.optimized holds
  obtain ⟨source, expected, isText⟩ := working.laid.document live holdsText
  rw [← FileContent.text.inj same] at isMade
  have isNames := follows record.id source text made names live.involved expected isText isMade reads
  rw [Catalog.id_of_find? found] at isNames
  refine ⟨by rw [isCount, counted, isNames], fun name member => ?_⟩
  obtain ⟨path, isPath⟩ := Option.isSome_iff_exists.1 isOptimized
  refine mem_referredNames.2 ⟨record, Catalog.mem_of_find? found, path, names, isPath, ?_, ?_⟩
  · rw [(fits.optimized path isPath).1]
    exact namesIn_eq_ok.2 ⟨made, working.laid.found live.optimized (by simp) holds, reads⟩
  · rw [isNames]
    exact member

/-- An object with a source that no file registers was pulled. -/
theorem Fits.stored {disk : Disk} {catalog : Catalog} {record : Record}
    (fits : site.Fits disk catalog record) (foreign : ¬site.Registers record.id)
    (sourced : record.source.isSome = true) : record.pulled = true := by
  by_contra unpulled
  rw [fits.unsourced foreign (by simpa using unpulled)] at sourced
  exact absurd sourced (by simp)

/-! ## Cycles -/

/-- Objects to which at most a number of references lead have a source, and nearer ones were
looked through. -/
structure Covers (site : Site) (refers : String → List String) (level : Nat) (catalog : Catalog) :
    Prop where
  sourced : ∀ id, Within site.roots refers level id →
    Marked (fun record => record.source.isSome) catalog id
  discovered : ∀ id, Nearer site.roots refers level id →
    Marked (fun record => record.discovered.isSome) catalog id

theorem Covers.later {catalog grown : Catalog} (covers : site.Covers refers level catalog)
    (grows : catalog.Grows grown) : site.Covers refers level grown :=
  ⟨fun id within => (covers.sourced id within).later Record.Within.source grows,
    fun id nearer => (covers.discovered id nearer).later Record.Within.discovered grows⟩

/-- Registering covers the objects of files. -/
theorem Working.covers_roots (working : site.Working True present) :
    site.Covers refers 0 present.foreign := by
  refine ⟨fun id within => ?_, fun id nearer => nearer.elim⟩
  obtain ⟨file, last⟩ := registers_iff.1 (within_zero.1 within)
  obtain ⟨record, found, source⟩ := working.enrolled trivial id file last
  exact ⟨record, found, by simp [source]⟩

section Cycles

variable (firm : site.Firm) (suits : site.Suits settings remote) (follows : site.Follows refers)

include firm suits follows

/-- A cycle covers one reference more. -/
theorem Working.covers_cycle {fetched : Nat} (exact_ : site.exact)
    (working : site.Working True before) (covers : site.Covers refers level before.foreign)
    (ran : (cycle settings remote).Yields before fetched after) :
    site.Covers refers (level + 1) after.foreign := by
  obtain ⟨_, parsed, _, optimized, _, discovered, ranParse, ranOptimize, ranDiscover, ranPull⟩ :=
    yields_cycle.1 ran
  rw [suits.target] at ranOptimize
  obtain ⟨atParsed, first, _⟩ := (governs_parseAll firm suits before working trivial).1 _ _ ranParse
  obtain ⟨atOptimized, second, _⟩ := (governs_optimizeAll firm parsed atParsed trivial).1 _ _
    ranOptimize
  obtain ⟨atDiscovered, third, _⟩ := (governs_discoverAll firm optimized atOptimized trivial).1 _ _
    ranDiscover
  obtain ⟨_, last, pulled⟩ := (governs_pullAll firm suits discovered atDiscovered rfl).1 _ _ ranPull
  have looked : ∀ id, Within site.roots refers level id →
      Marked (fun record => record.discovered.isSome) discovered.foreign id := fun id within =>
    discoverAll_marks remote atOptimized.tells.sorted ranDiscover
      (optimizeAll_marks remote atParsed.tells.sorted ranOptimize
        (parseAll_marks working.tells.sorted ranParse (covers.sourced id within)))
  refine ⟨fun name within => ?_, fun id nearer =>
    (looked id nearer).later Record.Within.discovered last.grows⟩
  rcases within_succ.1 within with near | ⟨id, within, member⟩
  · exact (covers.sourced name near).later Record.Within.source
      (((first.trans second).trans third).trans last).grows
  · obtain ⟨record, found, isSome⟩ := looked id within
    exact pulled name ((atDiscovered.referring follows found isSome).2 name member) exact_

/-- A build that settles has finished whatever references lead to. -/
theorem Working.settled_covers {bound : Nat} {answer : Nat × Nat} (exact_ : site.exact)
    (working : site.Working True before)
    (ran : (settle settings remote bound).Yields before answer after) :
    ∀ level, site.Covers refers level after.foreign := by
  have keeps : (cycle settings remote).Keeps (site.Working True) :=
    fun present _ next holds ranCycle =>
      ((governs_cycle firm suits present holds trivial).1 _ next ranCycle).1
  obtain ⟨last, fetched, atLast, ranCycle, same⟩ := settle_end keeps working ran
  have back : after.foreign.Grows last.foreign := Catalog.grows_of_state same.symm
  intro level
  refine Covers.later ?_ (Catalog.grows_of_state same)
  -- the last cycle covered nothing new, however far one looks
  induction level with
  | zero => exact atLast.covers_roots
  | succ level inductionHypothesis =>
    exact (atLast.covers_cycle firm suits follows exact_ inductionHypothesis ranCycle).later back

/-! ## Flawless grounds -/

variable (flawless : site.flawless)
  (needed : ∀ id, site.involved id → Needed site.roots refers id)

include flawless needed

omit follows in
/-- When everything is covered, no stage has anything to do. -/
theorem Working.covered_settled (isDepth : IsDepth site.roots refers depth)
    (working : site.Working True present) (covers : site.Covers refers (depth + 1) present.foreign) :
    Settled settings site.tags present.disk present.foreign := by
  have able := firm.able flawless
  constructor
  · intro record member
    have fits := working.tells.records record member
    obtain ⟨twin, found, isSome⟩ := covers.discovered record.id
      (isDepth.within _ (needed _ fits.involved))
    rw [Catalog.find?_of_mem working.tells.sorted member] at found
    have discovered : record.discovered.isSome = true := Option.some.inj found ▸ isSome
    have optimized := fits.optimized_of_discovered discovered
    exact ⟨fun _ => fits.parsed_of_optimized optimized, fun _ => optimized, fun _ => discovered⟩
  · intro name member
    have involved := working.referred firm member
    obtain ⟨record, found, sourced⟩ := covers.sourced name
      ((isDepth.within _ (needed _ involved)).mono (Nat.le_succ depth))
    by_cases registers : site.Registers name
    · have isLocal := working.isLocal registers
      exact ⟨Or.inl isLocal, fun wrong => absurd (isLocal.symm.trans wrong) (by simp)⟩
    have fits := working.tells.found found
    have sameId := Catalog.id_of_find? found
    have pulled := fits.stored (sameId ▸ registers) sourced
    have source := (fits.ofStore pulled).2
    have live := fits.live_stored pulled .pulled rfl
    have there := working.laid.there live (by simp) (fits.standing pulled (Or.inl able.exact))
    rw [sameId] at source there
    refine ⟨Or.inr ⟨able.placed name involved registers, Or.inr ⟨?_, ?_⟩⟩, fun _ =>
      able.pins name involved registers⟩
    · unfold pullChoice
      rw [suits.leaves able.exact, suits.target, if_neg Bool.false_ne_true]
      exact if_pos there
    · rw [suits.target]
      exact isRecorded_of_pulled found pulled source

/-- On flawless grounds a build settles within the cycles that are left to the farthest object. -/
theorem Working.settles (isDepth : IsDepth site.roots refers depth) {bound : Nat}
    (working : site.Working True before) (covers : site.Covers refers level before.foreign)
    (below : level ≤ depth + 1) (enough : depth + 2 ≤ bound + level) :
    ∃ answer after, (settle settings remote bound).Yields before answer after := by
  have exact_ := (firm.able flawless).exact
  induction bound generalizing level before with
  | zero => omega
  | succ left inductionHypothesis =>
    rcases Nat.lt_or_eq_of_le below with nearer | last
    · obtain ⟨fetched, after, ranCycle, atAfter, _, _⟩ :=
        (governs_cycle firm suits).yields (fun _ stopped => stopped.1 flawless) working trivial
      by_cases same : before.foreign.state = after.foreign.state
      · exact ⟨_, after, yields_settle.2 ⟨fetched, after, ranCycle, Or.inl ⟨same, rfl, rfl⟩⟩⟩
      · obtain ⟨others, final, ranRest⟩ := inductionHypothesis atAfter
          (working.covers_cycle firm suits follows exact_ covers ranCycle) (by omega) (by omega)
        exact ⟨_, final, yields_settle.2 ⟨fetched, after, ranCycle,
          Or.inr ⟨same, others, ranRest, rfl⟩⟩⟩
    · rw [last] at covers
      have settled := working.covered_settled firm suits flawless needed isDepth covers
      obtain ⟨after, ran, _⟩ := settle_yields (suits.tables flawless) settled
        ⟨working.slot exact_, by simp⟩ left
      exact ⟨_, after, ran⟩

/-- On flawless grounds an assembly takes up the work and succeeds, with cycles enough for the
farthest object. -/
theorem Resumable.succeeds (isDepth : IsDepth site.roots refers depth)
    (resumable : site.Resumable before.disk) (selects : site.Selects settings before.disk)
    (slot : site.exact → ∀ text ∈ before.slot.text, site.tags = .ok text)
    (calm : before.disk.Calm)
    (countable : ∀ id, site.involved id → (refers id).length < UInt64.size)
    (enough : depth + 2 ≤ settings.maxCycles) :
    ∃ answer after, (assemble settings remote).Yields before answer after := by
  have exact_ := (firm.able flawless).exact
  obtain ⟨foreign, external, tells, filed, exports, filedExternal⟩ := resumable.catalogs
  have opened : site.Working False { before with foreign := foreign, external := external } :=
    ⟨resumable.laid, tells, filed, exports, filedExternal, resumable.neat, slot, False.elim,
      fun _ => calm⟩
  have clear : ∀ file ∈ catalogNames, before.disk.directoryAt (site.catalogSpot file) = false := by
    intro file known
    have isFile : file ∈ catalogFiles := (catalogNames_plain file known).2.2.1
    rw [← goal_catalog isFile]
    exact (resumable.neat exact_).noDirectory (firm.exact exact_) (.catalog isFile)
  obtain ⟨ranForeign, ranExternal⟩ := opened.reopens firm (fun record member count isCount => by
    have found := Catalog.find?_of_mem tells.sorted member
    have counted := (opened.referring follows found (by simp [Option.mem_def.1 isCount])).1
    rw [Option.mem_def.1 isCount] at counted
    rw [Option.some.inj counted]
    exact countable _ (tells.records record member).involved) clear
  obtain ⟨count, registered, ranRegister, atRegistered, _, _⟩ := (governs_register firm suits).yields
    (fun _ stopped => stopped.1 flawless) opened selects
  have selected : site.Selects settings
      ({ before with foreign := foreign, external := external } : Workspace).disk := selects
  have working := atRegistered.enroll suits selected ranRegister
  obtain ⟨⟨cycles, pulled⟩, after, ranSettle⟩ := working.settles firm suits follows flawless needed
    isDepth working.covers_roots (Nat.zero_le _) (by omega : depth + 2 ≤ settings.maxCycles + 0)
  rw [← suits.target] at ranForeign ranExternal
  exact ⟨⟨count, cycles, pulled, after.foreign.size⟩, after, yields_assemble_opened.2
    ⟨foreign, external, registered, ranForeign, ranExternal, ranRegister, ranSettle, rfl⟩⟩

end Cycles

end Site

end EoAssembly.Build
