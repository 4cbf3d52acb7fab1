import EoAssembly.Proofs.Build.Enrolling

/-!
Contract: what the catalog of a project tells is so, after any history.

A history starts without records.  Stages and whole builds are run in any order, with any
settings that keep the directories, against any remote; each may stop anywhere, and the
next one may be another process, which reads the catalog file again.  Meanwhile files may
be added from outside, but for the catalog file.

Owns `History`, `Truthful`, and that the catalog is truthful wherever a history leads.
-/

namespace EoAssembly.Build

variable {grounds : Grounds} {settings : Settings} {remote : Remote}

/-! ## Histories -/

/-- The grounds of a project with strict names. -/
def Grounds.strictly (sources target protocols : Path) (current : Location)
    (own : Location → Prop) : Grounds :=
  ⟨sources, target, protocols, current, own, True, False⟩

/-- What is run on a project. -/
inductive Stage where
  | register
  | parse
  | optimize
  | discover
  | pull
  | assemble
  deriving DecidableEq

/-- Runs a stage, or all of them. -/
def Stage.run (settings : Settings) (remote : Remote) : Stage → Step Unit
  | .register => do let _ ← Build.register settings
  | .parse => do let _ ← parseAll settings remote
  | .optimize => do let _ ← optimizeAll settings.target
  | .discover => do let _ ← discoverAll
  | .pull => do let _ ← pullAll settings remote
  | .assemble => do let _ ← Build.assemble settings remote

/-- From outside files are added at most, and none becomes the catalog file. -/
structure Tolerates (grounds : Grounds) (before after : Disk) : Prop where
  grounded : Grounded grounds after
  kept : ∀ location, before.entryAt? location ≠ none →
    after.entryAt? location = before.entryAt? location
  catalog : after.entryAt? ((catalogPath grounds.target).goal grounds.current) =
    before.entryAt? ((catalogPath grounds.target).goal grounds.current)

/-- Where a history of a project may lead. -/
inductive History (grounds : Grounds) : Workspace → Prop where
  /-- A process opens a project whose catalog file, if there is one, holds no records. -/
  | start {disk : Disk} {instant : String} {opened : Workspace} (grounded : Grounded grounds disk)
    (empty : ∀ text records, disk.entryAt? ((catalogPath grounds.target).goal grounds.current) =
      some (.file (.text text)) → Record.allOfText? text = some records → records = [])
    (ran : Workspace.openIn disk grounds.target instant = .ok opened) : History grounds opened
  /-- A stage runs, and succeeds or stops where it fails. -/
  | run {before after : Workspace} {outcome : Except Failure Unit} (history : History grounds before)
    (stage : Stage) {settings : Settings} {remote : Remote} (suits : grounds.Suits settings)
    (store : remote.KeepsTo grounds.own) (named : remote.KeepsNames)
    (ran : (stage.run settings remote).perform before = (outcome, after)) : History grounds after
  /-- A worker of the optimizer makes one optimized document, whatever becomes of the others. -/
  | worker {before after : Workspace} {outcome : Except Failure Path}
    (history : History grounds before) {id : String} {xmir : Path}
    (pending : (id, xmir) ∈ unoptimized before.foreign)
    (ran : (optimizeDocument grounds.target id xmir).perform before = (outcome, after)) :
    History grounds after
  /-- Between two stages files are added from outside, and later writes are set to fail. -/
  | between {before after : Workspace} (history : History grounds before)
    (tolerates : Tolerates grounds before.disk after.disk) (foreign : after.foreign = before.foreign)
    (external : after.external = before.external) : History grounds after
  /-- Another process takes over. -/
  | reopen {before opened : Workspace} {instant : String} (history : History grounds before)
    (ran : Workspace.openIn before.disk grounds.target instant = .ok opened) : History grounds opened

theorem History.performed {before : Workspace} (history : History grounds before) (stage : Stage)
    (suits : grounds.Suits settings) (store : remote.KeepsTo grounds.own)
    (named : remote.KeepsNames) :
    History grounds ((stage.run settings remote).perform before).2 :=
  .run history stage suits store named rfl

/-! ## Opening -/

theorem openIn_ok {disk : Disk} {directory : Path} {instant : String} {opened : Workspace}
    (ran : Workspace.openIn disk directory instant = .ok opened) :
    opened.disk = disk ∧
      Catalog.openAt disk (directory.child Catalogs.foreignFile) = .ok opened.foreign ∧
      Catalog.openAt disk (directory.child Catalogs.externalFile) = .ok opened.external := by
  unfold Workspace.openIn Catalogs.openIn at ran
  cases foreign : Catalog.openAt disk (directory.child Catalogs.foreignFile) with
  | error failure => simp [foreign] at ran
  | ok catalog =>
    cases external : Catalog.openAt disk (directory.child Catalogs.externalFile) with
    | error failure => simp [foreign, external] at ran
    | ok exported =>
      simp only [foreign, external] at ran
      rw [← Except.ok.inj ran]
      exact ⟨rfl, rfl, rfl⟩

/-- Another process finds a steady workspace where an earlier one stopped. -/
theorem Steady.open_ {disk : Disk} {instant : String} {opened : Workspace}
    (grounded : Grounded grounds disk) (stored : Stored grounds disk)
    (ran : Workspace.openIn disk grounds.target instant = .ok opened) : Steady grounds opened := by
  obtain ⟨rfl, foreign, external⟩ := openIn_ok ran
  exact ⟨grounded, stored.opened grounded.current foreign, (Catalog.openAt_ok external).1, stored⟩

theorem Tolerates.onward {before after : Disk} (grounded : Grounded grounds before)
    (tolerates : Tolerates grounds before after)
    (open_ : ¬grounds.saving) : grounds.Onward before after := by
  have current := tolerates.grounded.current.trans grounded.current.symm
  have stays : ∀ (path : Path) entry, before.entry? path = some entry →
      after.entry? path = some entry := by
    intro path entry stands
    obtain ⟨some_, passable, here⟩ := Disk.entry_eq_some stands
    have still : after.Passable path := by
      intro passed member
      rw [current] at member
      have directory := Disk.directoryAt_iff.1 (passable passed member)
      rw [Disk.directoryAt_iff, tolerates.kept passed (by rw [directory]; simp), directory]
    have sameEntry := tolerates.kept (path.goal before.current) (by rw [here]; simp)
    rw [← stands]
    exact Disk.entry_congr current ⟨fun _ => passable, fun _ => still⟩ sameEntry
  refine ⟨fun path _ there => ?_, fun _ id _ content there => stays _ _ there,
    fun saving => absurd saving open_⟩
  obtain ⟨entry, stands⟩ := Disk.exists?_iff.1 there
  exact Disk.exists?_iff.2 ⟨entry, stays path entry stands⟩

/-! ## Stages -/

section Stages

variable (firm : grounds.Firm) (suits : grounds.Suits settings)
  (store : remote.KeepsTo grounds.own) (named : remote.KeepsNames) {present after : Workspace}

theorem steady_of_governs {α : Type} {step : Step α} {outcome : Except Failure α}
    {pre : Workspace → Prop} {post : α → Workspace → Prop} (strict : grounds.strict)
    (open_ : ¬grounds.saving) (governs : grounds.regime.Governs pre step post)
    (steady : Steady grounds present) (here : pre present)
    (ran : step.perform present = (outcome, after)) : Steady grounds after := by
  obtain ⟨yields, stops⟩ := governs present ⟨steady, fun saving => absurd saving open_⟩ here
  cases outcome with
  | ok value => exact (yields value after ran).1.1
  | error failure => exact stops failure after ran strict

include firm suits store named

theorem Steady.assemble (strict : grounds.strict) (open_ : ¬grounds.saving)
    (steady : Steady grounds present) {outcome : Except Failure Assembly}
    (ran : (Build.assemble settings remote).perform present = (outcome, after)) :
    Steady grounds after := by
  have rest : grounds.regime.Governs (fun _ => True) (do
      let registered ← Build.register settings
      let counts ← settle settings remote settings.maxCycles
      let objects ← Step.look fun workspace => workspace.foreign.size
      pure (⟨registered, counts.1, counts.2, objects⟩ : Assembly)) fun _ _ => True := by
    refine .bind ((governs_register firm suits (Or.inl strict)).from_ fun _ _ _ =>
      ⟨fun _ _ saving => absurd saving open_, fun saving => absurd saving open_⟩) fun _ => ?_
    refine .bind (governs_settle firm suits store named _) fun _ => ?_
    exact .bind governs_look fun _ => .pure fun _ _ _ => trivial
  unfold Build.assemble at ran
  rw [Step.perform_bind, suits.target] at ran
  cases opening : (Workspace.reopen grounds.target).perform present with
  | mk result between =>
    rw [opening] at ran
    cases result with
    | ok value =>
      obtain ⟨foreign, external, isBetween, openedForeign, openedExternal⟩ := yields_reopen.1 opening
      refine steady_of_governs strict open_ rest ?_ trivial ran
      rw [isBetween]
      exact ⟨steady.grounded, steady.stored.opened steady.grounded.current openedForeign,
        (Catalog.openAt_ok openedExternal).1, steady.stored⟩
    | error failure =>
      rw [← (Prod.mk.inj ran).2]
      have same : between = present := by
        unfold Workspace.reopen at opening
        rw [Step.perform_ofAction] at opening
        split at opening
        · exact absurd (Prod.mk.inj opening).1 (by simp)
        · exact (Prod.mk.inj opening).2.symm
      rw [same]
      exact steady

/-- A stage leaves a steady workspace steady, wherever it stops. -/
theorem Steady.run (strict : grounds.strict) (open_ : ¬grounds.saving) (stage : Stage)
    (steady : Steady grounds present) {outcome : Except Failure Unit}
    (ran : (stage.run settings remote).perform present = (outcome, after)) :
    Steady grounds after := by
  have finish : ∀ {α : Type} {step : Step α},
      grounds.regime.Governs (fun _ => True) step (fun _ _ => True) →
      grounds.regime.Governs (fun _ => True) (do let _ ← step) (fun _ _ => True) :=
    fun governs => .bind governs fun _ => .pure fun _ _ _ => trivial
  cases stage with
  | register =>
    refine steady_of_governs strict open_ (finish ((governs_register firm suits
      (Or.inl strict)).from_ fun _ _ _ => ⟨fun _ _ saving => absurd saving open_,
        fun saving => absurd saving open_⟩)) steady
      trivial ran
  | parse => exact steady_of_governs strict open_ (finish (governs_parseAll firm suits)) steady trivial ran
  | optimize =>
    unfold Stage.run at ran
    rw [suits.target] at ran
    exact steady_of_governs strict open_ (finish (governs_optimizeAll firm)) steady trivial ran
  | discover => exact steady_of_governs strict open_ (finish (governs_discoverAll firm)) steady trivial ran
  | pull =>
    exact steady_of_governs strict open_ (finish (governs_pullAll firm suits store named)) steady trivial ran
  | assemble =>
    unfold Stage.run at ran
    rw [Step.perform_bind] at ran
    cases result : (Build.assemble settings remote).perform present with
    | mk answer between =>
      have here := Steady.assemble firm suits store named strict open_ steady result
      rw [result] at ran
      cases answer with
      | ok value =>
        rw [← (Prod.mk.inj ran).2]
        exact here
      | error failure =>
        rw [← (Prod.mk.inj ran).2]
        exact here

end Stages

/-- Wherever a history of a project leads, the workspace is steady. -/
theorem History.steady (firm : grounds.Firm) (strict : grounds.strict) (open_ : ¬grounds.saving)
    {present : Workspace} (history : History grounds present) : Steady grounds present := by
  induction history with
  | start grounded empty ran =>
    refine Steady.open_ grounded (fun text records stands reads => ?_) ran
    rw [empty text records stands reads]
    exact ⟨rfl, List.Pairwise.nil, fun record member => absurd member (by simp [Catalog.recordsOf,
      Ordered.ofList])⟩
  | run _ stage suits store named ran inductionHypothesis =>
    exact Steady.run firm suits store named strict open_ stage inductionHypothesis ran
  | worker _ pending ran inductionHypothesis =>
    have marked := marked_of_pending inductionHypothesis.foreign.sorted pending
    exact steady_of_governs strict open_ (governs_optimizeDocument firm _) inductionHypothesis marked
      ran
  | between _ tolerates foreign external inductionHypothesis =>
    have onward := tolerates.onward inductionHypothesis.grounded open_
    refine ⟨tolerates.grounded, ?_, ?_, inductionHypothesis.stored.onward onward fun content stands => ?_⟩
    · rw [foreign]
      exact inductionHypothesis.foreign.onward onward
    · rw [external]
      exact inductionHypothesis.external
    · rw [← tolerates.catalog]
      exact stands
  | reopen _ ran inductionHypothesis =>
    exact Steady.open_ inductionHypothesis.grounded inductionHypothesis.stored ran

/-! ## Truthful catalogs -/

/-- The paths that a record tells. -/
def pathsOf (record : Record) : List Path :=
  record.source.toList ++ record.xmir.toList ++ record.optimized.toList ++ record.discoveredAt.toList

/-- Every record of a catalog went through its stages in order, every path that a record tells
leads to something, and what a discovered document refers to has a record. -/
structure Truthful (disk : Disk) (catalog : Catalog) : Prop where
  discovered : ∀ record ∈ catalog.records, record.discovered.isSome = true →
    record.optimized.isSome = true
  optimized : ∀ record ∈ catalog.records, record.optimized.isSome = true →
    record.xmir.isSome = true
  parsed : ∀ record ∈ catalog.records, record.xmir.isSome = true → record.source.isSome = true
  pulled : ∀ record ∈ catalog.records, record.pulled = true → record.source.isSome = true
  stands : ∀ record ∈ catalog.records, ∀ path ∈ pathsOf record, disk.exists? path = true
  closed : ∀ record ∈ catalog.records, record.discovered.isSome = true →
    ∀ document ∈ record.optimized, ∃ names, namesIn disk document = .ok names ∧
      ∀ name ∈ names, catalog.contains name = true

theorem Upheld.truthful (strict : grounds.strict) {disk : Disk} {catalog : Catalog}
    (upheld : Upheld grounds disk catalog) : Truthful disk catalog where
  discovered record member := (upheld.records record member).discovered
  optimized record member := (upheld.records record member).optimized
  parsed record member := (upheld.records record member).parsed
  pulled record member := (upheld.records record member).pulled
  stands record member path among := by
    have borne := upheld.records record member
    simp only [pathsOf, List.mem_append, Option.mem_toList] at among
    rcases among with ((source | xmir) | optimized) | discoveredAt
    · exact (borne.source path source).1.2
    · exact (borne.xmir path xmir).1.2
    · exact (borne.document path optimized).1.2
    · exact (borne.discoveredAt path discoveredAt).1.2
  closed record member discovered document isOptimized := by
    have borne := upheld.records record member
    obtain ⟨names, reads, known⟩ := borne.closed strict discovered
    rw [(borne.document document isOptimized).2]
    refine ⟨names, reads, fun name among => ?_⟩
    obtain ⟨other, found⟩ := known name among
    unfold Catalog.contains
    rw [found]
    rfl

/-- Wherever a history of a project with strict names leads, the catalog in memory and the one
that is read from the catalog file are truthful. -/
theorem history_truthful {sources target protocols : Path} {current : Location}
    {own : Location → Prop} (firm : (Grounds.strictly sources target protocols current own).Firm)
    {present : Workspace} (history : History (.strictly sources target protocols current own) present) :
    Truthful present.disk present.foreign ∧
      ∀ catalog, Catalog.openAt present.disk (catalogPath target) = .ok catalog →
        Truthful present.disk catalog := by
  have steady := history.steady firm trivial id
  refine ⟨steady.foreign.truthful trivial, fun catalog opened => ?_⟩
  exact (steady.stored.opened steady.grounded.current opened).truthful trivial

/-! ## An interrupted build -/

/-- The directories of the sample project. -/
def sampleGrounds : Grounds :=
  .strictly sampleSettings.sources sampleSettings.target sampleSettings.protocols ["w"] fun _ => False

/-- The sample project, where the write after the first seventeen fails. -/
def interruptedStart : Workspace :=
  { sampleStart with
    disk := { sampleStart.disk with outages := List.replicate 17 false ++ [true] }
    foreign := ⟨catalogPath sampleSettings.target, []⟩
    external := ⟨sampleSettings.target.child Catalogs.externalFile, []⟩ }

/-- What the assembly of the project comes to. -/
def interruptedRun : Except Failure Unit × Workspace :=
  (Stage.assemble.run sampleSettings sampleRemote).perform interruptedStart

theorem firm_sample : sampleGrounds.Firm :=
  ⟨by decide, by decide, by decide, by decide, by decide, fun _ owned => owned.elim,
    fun _ owned => owned.elim, fun saving => saving.elim⟩

theorem history_interrupted : History sampleGrounds interruptedRun.2 := by
  have nothing : interruptedStart.disk.entryAt?
      ((catalogPath sampleGrounds.target).goal sampleGrounds.current) = none := by decide
  have grounded : Grounded sampleGrounds interruptedStart.disk :=
    ⟨Disk.sound_of_entries (by decide) (by decide), by decide, rfl⟩
  have opened : Workspace.openIn interruptedStart.disk sampleGrounds.target "" =
      .ok interruptedStart := by rfl
  refine History.performed (.start grounded (fun text records stands => ?_) opened) .assemble
    ⟨rfl, rfl, rfl, fun _ => rfl⟩ (fetchOf_keepsTo _ _ _) (fun _ _ named => named)
  rw [nothing] at stands
  exact absurd stands (by simp)

theorem sample_truthful : sampleGrounds.Firm ∧ History sampleGrounds interruptedRun.2 ∧
    interruptedRun.2.foreign.records.map (fun record => (record.id, record.optimized.isSome)) =
      [("a", true), ("org.eolang.b", false)] ∧
    Truthful interruptedRun.2.disk interruptedRun.2.foreign :=
  ⟨firm_sample, history_interrupted, by decide +kernel,
    (history_truthful firm_sample history_interrupted).1⟩

end EoAssembly.Build
