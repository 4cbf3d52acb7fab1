import EoAssembly.Proofs.Build.Depot
import EoAssembly.Proofs.Build.Writable

/-!
Contract: what one pull does to sources and their logs.

A pull that succeeds has written the sources that it asked for with their logs, and left
those of the others alone.  One that is stopped leaves a source without its log only where
it found it so, or where it was stopped by the failing write of the log.

Owns `Depot.Ran`, `Depot.Stopped` and the regime of one pull.

Does not own: what pulls come to one after another.
-/

namespace EoAssembly.Build

open ObjectName (checkPlace)

variable {disk next : Disk} {before after present start : Workspace} {remote : Remote}
  {name other text : String} {location : Location} {asked : List String}

namespace Depot

variable {depot : Depot}

/-- The source of an object stands without its log. -/
def Alone (depot : Depot) (disk : Disk) (name : String) : Prop :=
  FileAt disk (depot.sourceSpot name) ∧ ¬FileAt disk (depot.logSpot name)

/-- A pull was stopped at the log of an object: its source was the last that was asked for, and
the disk is as the failing write of the log left it. -/
def LogFailed (depot : Depot) (start present : Workspace) (name : String) : Prop :=
  (∃ asked other, depot.source other = depot.source name ∧
    sourcesAsked present.journal = sourcesAsked start.journal ++ asked ++ [other]) ∧
  ∃ disk text failure,
    Document.writeBelow disk (depot.log name) text = (.error failure, present.disk)

/-- The source of an object is one of those that were asked for. -/
def Asked (depot : Depot) (asked : List String) (name : String) : Prop :=
  ∃ other ∈ asked, depot.source other = depot.source name

theorem Asked.more (among : depot.Asked asked name) (more : List String) :
    depot.Asked (asked ++ more) name := by
  obtain ⟨other, member, same⟩ := among
  exact ⟨other, List.mem_append_left _ member, same⟩

/-- What is asked for with another object was asked for before, when it is not that object. -/
theorem Asked.earlier (among : depot.Asked (asked ++ [other]) name)
    (apart : depot.source other ≠ depot.source name) : depot.Asked asked name := by
  obtain ⟨asker, member, same⟩ := among
  rcases List.mem_append.1 member with earlier | last
  · exact ⟨asker, earlier, same⟩
  · rw [List.mem_singleton.1 last] at same
    exact absurd same apart

/-- What a pull has done when it has asked for sources and seen to them: those have their files
and their logs, and nothing happened to the files of the others. -/
structure Ran (depot : Depot) (start : Workspace) (asked : List String) (present : Workspace) :
    Prop where
  tidy : depot.Tidy present
  journal : sourcesAsked present.journal = sourcesAsked start.journal ++ asked
  written : ∀ name, depot.names name → depot.Asked asked name →
    FileAt present.disk (depot.sourceSpot name) ∧ FileAt present.disk (depot.logSpot name)
  same : ∀ name, depot.names name → ¬depot.Asked asked name →
    present.disk.entryAt? (depot.sourceSpot name) = start.disk.entryAt? (depot.sourceSpot name) ∧
      present.disk.entryAt? (depot.logSpot name) = start.disk.entryAt? (depot.logSpot name)

/-- What a pull leaves that was stopped: a source stands without its log where it did before, or
where the write of the log failed. -/
structure Stopped (depot : Depot) (start present : Workspace) : Prop where
  tidy : depot.Tidy present
  alone : ∀ name, depot.names name → depot.Alone present.disk name →
    depot.Alone start.disk name ∨ depot.LogFailed start present name

theorem Alone.congr
    (source : next.entryAt? (depot.sourceSpot name) = disk.entryAt? (depot.sourceSpot name))
    (log : next.entryAt? (depot.logSpot name) = disk.entryAt? (depot.logSpot name)) :
    depot.Alone next name ↔ depot.Alone disk name :=
  and_congr (FileAt.congr source) (not_congr (FileAt.congr log))

namespace Ran

theorem initial (tidy : depot.Tidy present) : depot.Ran present [] present where
  tidy := tidy
  journal := (List.append_nil _).symm
  written name _ asked := by
    obtain ⟨other, member, _⟩ := asked
    exact absurd member List.not_mem_nil
  same _ _ _ := ⟨rfl, rfl⟩

theorem leads (firm : depot.Firm) (ran : depot.Ran start asked before)
    (leads : depot.Leads before after) : depot.Ran start asked after where
  tidy := leads.tidy
  journal := leads.asked.trans ran.journal
  written name known member := by
    rw [FileAt.congr (leads.files _ (firm.guarded_source known)),
      FileAt.congr (leads.files _ (firm.guarded_log known))]
    exact ran.written name known member
  same name known apart := by
    rw [leads.files _ (firm.guarded_source known), leads.files _ (firm.guarded_log known)]
    exact ran.same name known apart

/-- A source that stands without its log did so when the pull started. -/
theorem alone_iff (ran : depot.Ran start asked present) (known : depot.names name) :
    depot.Alone present.disk name ↔ depot.Alone start.disk name ∧ ¬depot.Asked asked name := by
  by_cases member : depot.Asked asked name
  · have both := ran.written name known member
    constructor
    · exact fun alone => absurd both.2 alone.2
    · exact fun wrong => absurd member wrong.2
  · obtain ⟨source, log⟩ := ran.same name known member
    rw [Alone.congr source log]
    exact ⟨fun alone => ⟨alone, member⟩, fun alone => alone.1⟩

/-- What is as a pull found it stands without its log only if it did so at the start. -/
theorem alone_start (ran : depot.Ran start asked before) (known : depot.names name)
    (source : next.entryAt? (depot.sourceSpot name) = before.disk.entryAt? (depot.sourceSpot name))
    (log : next.entryAt? (depot.logSpot name) = before.disk.entryAt? (depot.logSpot name))
    (alone : depot.Alone next name) : depot.Alone start.disk name :=
  ((ran.alone_iff known).1 ((Alone.congr source log).1 alone)).1

theorem stopped (ran : depot.Ran start asked present) : depot.Stopped start present :=
  ⟨ran.tidy, fun _ known alone => Or.inl ((ran.alone_iff known).1 alone).1⟩

/-- One more source is seen to. -/
theorem extend (ran : depot.Ran start asked before) (tidy : depot.Tidy after)
    (journal : sourcesAsked after.journal = sourcesAsked before.journal ++ [name])
    (others : ∀ other, depot.names other → depot.source other ≠ depot.source name →
      after.disk.entryAt? (depot.sourceSpot other) = before.disk.entryAt? (depot.sourceSpot other) ∧
        after.disk.entryAt? (depot.logSpot other) = before.disk.entryAt? (depot.logSpot other))
    (shared : ∀ other, depot.names other → depot.source other = depot.source name →
      FileAt after.disk (depot.sourceSpot other) ∧ FileAt after.disk (depot.logSpot other)) :
    depot.Ran start (asked ++ [name]) after where
  tidy := tidy
  journal := by rw [journal, ran.journal, List.append_assoc]
  written other known among := by
    by_cases same : depot.source other = depot.source name
    · exact shared other known same
    · obtain ⟨source, log⟩ := others other known same
      rw [FileAt.congr source, FileAt.congr log]
      exact ran.written other known (among.earlier fun wrong => same wrong.symm)
  same other known apart := by
    have different : depot.source other ≠ depot.source name := fun same =>
      apart ⟨name, List.mem_append_right _ List.mem_cons_self, same.symm⟩
    obtain ⟨source, log⟩ := others other known different
    rw [source, log]
    exact ran.same other known fun among => apart (among.more [name])

end Ran

/-! ## Fetching a source -/

/-- A change of sources and logs keeps a workspace tidy when what is new is a file, and a log of
its source in the place of a log. -/
theorem Tidy.alter (tidy : depot.Tidy before)
    (walkable : Walkable depot.settings depot.file depot.current after)
    (foreign : after.foreign = before.foreign)
    (catalog : after.disk.entryAt? (depot.file.goal depot.current) =
      before.disk.entryAt? (depot.file.goal depot.current))
    (sources : ∀ name, depot.names name →
      after.disk.entryAt? (depot.sourceSpot name) = before.disk.entryAt? (depot.sourceSpot name) ∨
        FileAt after.disk (depot.sourceSpot name))
    (logs : ∀ name, depot.names name →
      after.disk.entryAt? (depot.logSpot name) = before.disk.entryAt? (depot.logSpot name) ∨
        ∃ instant, after.disk.entryAt? (depot.logSpot name) =
          some (.file (.text (logText (depot.source name) instant)))) :
    depot.Tidy after where
  walkable := walkable
  fit := foreign ▸ tidy.fit
  credited id origin marks := by
    obtain ⟨known, isSource, stands⟩ := tidy.credited id origin
      (tidy.credited_same walkable foreign catalog marks)
    refine ⟨known, isSource, ?_⟩
    rcases sources id known with same | file
    · exact (FileAt.congr same).2 stands
    · exact file
  noDirectory name known := by
    obtain ⟨source, log⟩ := tidy.noDirectory name known
    constructor
    · rcases sources name known with same | file
      · rw [Disk.directoryAt_congr same]
        exact source
      · exact file.not_directory
    · rcases logs name known with same | ⟨instant, stands⟩
      · rw [Disk.directoryAt_congr same]
        exact log
      · exact FileAt.not_directory ⟨_, stands⟩
  logged name known content stands := by
    rcases logs name known with same | ⟨instant, isLog⟩
    · exact tidy.logged name known content (same ▸ stands)
    · rw [isLog] at stands
      exact ⟨instant, (Entry.file.inj (Option.some.inj stands)).symm⟩

/-- A store that is asked keeps to files of its own. -/
theorem Tidy.fetch (firm : depot.Firm) (store : remote.KeepsTo depot.own) (tidy : depot.Tidy before)
    {outcome : Except Failure String} (ran : (Step.fetch remote name).perform before = (outcome, after)) :
    depot.Tidy after ∧ (∀ location, Guarded depot.settings depot.current location →
        after.disk.entryAt? location = before.disk.entryAt? location) ∧
      sourcesAsked after.journal = sourcesAsked before.journal ++ [name] := by
  obtain ⟨sound, current, outside⟩ := store name before.disk tidy.walkable.sound
  obtain ⟨_, rfl⟩ := Prod.mk.inj ran
  have walks : ∀ path : Path, (∀ passed ∈ path.left depot.current, ¬depot.own passed) →
      before.disk.Passable path → (remote.fetch name before.disk).2.Passable path :=
    fun path free => (Disk.passable_congr current fun passed member =>
      outside passed (free passed (tidy.walkable.current ▸ member))).2
  have apart := fun passed owned => firm.disjoint.store passed owned
  have walkable : Walkable depot.settings depot.file depot.current
      { before with
        disk := (remote.fetch name before.disk).2
        journal := before.journal ++ [.source name] } :=
    ⟨sound, current.trans tidy.walkable.current, tidy.walkable.sorted, tidy.walkable.path,
      walks _ (fun passed member owned => (apart passed owned).2.1 member) tidy.walkable.target,
      walks _ (fun passed member owned => (apart passed owned).2.2.1 member) tidy.walkable.protocols,
      walks _ (fun passed member owned => (apart passed owned).2.2.2 member) tidy.walkable.catalog⟩
  have files : ∀ location, Guarded depot.settings depot.current location →
      (remote.fetch name before.disk).2.entryAt? location = before.disk.entryAt? location :=
    fun location guarded => outside location fun owned => (apart location owned).1 guarded
  have catalog : ¬depot.own (depot.file.goal depot.current) := by
    intro owned
    refine (firm.store _ owned).2.2.1 ?_
    unfold file
    rw [goal_catalogPath]
    exact List.prefix_append _ _
  refine ⟨?_, files, sourcesAsked_source _ _⟩
  exact tidy.alter walkable rfl (outside _ catalog)
    (fun _ known => Or.inl (files _ (firm.guarded_source known)))
    fun _ known => Or.inl (files _ (firm.guarded_log known))

/-- What is neither the goal of a write nor above it is left alone, and so is the goal when the
write fails. -/
theorem Tidy.write_elsewhere (tidy : depot.Tidy before) {path : Path} {outcome : Except Failure Unit}
    (ends : path.EndsInName) (passable : before.disk.Passable path)
    (ran : Document.writeBelow before.disk path text = (outcome, next))
    (apart : ¬location <+: path.goal depot.current ∨
      location = path.goal depot.current ∧ ∃ failure, outcome = .error failure) :
    next.entryAt? location = before.disk.entryAt? location := by
  rw [← tidy.walkable.current] at apart
  rcases apart with off | ⟨same, failed⟩
  · have spared := Document.writeBelow_spares tidy.walkable.sound ends passable ran
      (Or.inl fun same => off (same ▸ List.prefix_rfl))
    exact spared.resolve_right fun wrong => off wrong.1
  · have other : location ≠ path.goal before.disk.current ∨ ∃ failure, outcome = .error failure :=
      Or.inr failed
    have spared := Document.writeBelow_spares tidy.walkable.sound ends passable ran other
    exact spared.resolve_right fun wrong => wrong.2.1 same

/-- What a write of a source or a log makes of the rest of a workspace. -/
structure Wrote (depot : Depot) (path : Path) (text : String) (outcome : Except Failure Unit)
    (before after : Workspace) : Prop where
  walkable : Walkable depot.settings depot.file depot.current after
  foreign : after.foreign = before.foreign
  journal : after.journal = before.journal
  elsewhere : ∀ location, ¬location <+: path.goal depot.current →
    after.disk.entryAt? location = before.disk.entryAt? location
  failed : (∃ failure, outcome = .error failure) →
    after.disk.entryAt? (path.goal depot.current) = before.disk.entryAt? (path.goal depot.current)
  stands : outcome = .ok () →
    after.disk.entryAt? (path.goal depot.current) = some (.file (.text text))

theorem Tidy.wrote (tidy : depot.Tidy before) {path : Path} {outcome : Except Failure Unit}
    (ends : path.EndsInName) (passable : before.disk.Passable path)
    (ran : (Step.write path text).perform before = (outcome, after)) :
    depot.Wrote path text outcome before after := by
  obtain ⟨disk, written, rfl⟩ := Step.perform_onDisk ran
  obtain ⟨made, touches, _⟩ := Document.writeBelow_any tidy.walkable.sound written
  refine ⟨tidy.walkable.touch touches, rfl, rfl, ?_, ?_, ?_⟩
  · exact fun location apart => tidy.write_elsewhere ends passable written (Or.inl apart)
  · exact fun failed => tidy.write_elsewhere ends passable written (Or.inr ⟨rfl, failed⟩)
  · intro isOk
    rw [isOk] at written
    rw [← tidy.walkable.current]
    exact (Document.writeBelow_ok tidy.walkable.sound written).2.2.2

section Writes

variable {outcome : Except Failure Unit}

theorem ends_source (firm : depot.Firm) (known : depot.names name) : (depot.source name).EndsInName :=
  endsInName_pulledPlace depot.settings (firm.placeable known)

theorem ends_log (firm : depot.Firm) (known : depot.names name) : (depot.log name).EndsInName :=
  endsInName_logPlace (firm.placeable known) (firm.hasFile name known "log") _

theorem Firm.file_not_on_way (firm : depot.Firm) (known : depot.names name) :
    ¬depot.file.goal depot.current <+: depot.sourceSpot name ∧
      ¬depot.file.goal depot.current <+: depot.logSpot name := by
  unfold file
  rw [goal_catalogPath]
  exact firm.not_on_way (by decide) known

/-- Objects that share a source share the log. -/
theorem Firm.log_of_source (firm : depot.Firm) (known : depot.names name)
    (knownOther : depot.names other) (same : depot.source other = depot.source name) :
    depot.log other = depot.log name := by
  have spots : depot.sourceSpot other <+: depot.sourceSpot name := by
    simp only [sourceSpot, same, List.prefix_refl]
  exact (firm.shared other name knownOther known (Or.inl spots)).2

/-- Writing a source changes the files of that source only. -/
theorem Tidy.write_source (firm : depot.Firm) (tidy : depot.Tidy before) (known : depot.names name)
    (ran : (Step.write (depot.source name) text).perform before = (outcome, after)) :
    depot.Tidy after ∧ after.journal = before.journal ∧
      (∀ other, depot.names other → after.disk.entryAt? (depot.logSpot other) =
        before.disk.entryAt? (depot.logSpot other)) ∧
      (∀ other, depot.names other →
        depot.source other ≠ depot.source name ∨ (∃ failure, outcome = .error failure) →
        after.disk.entryAt? (depot.sourceSpot other) =
          before.disk.entryAt? (depot.sourceSpot other)) ∧
      (outcome = .ok () → ∀ other, depot.source other = depot.source name →
        FileAt after.disk (depot.sourceSpot other)) := by
  have wrote := tidy.wrote (ends_source firm known)
    (passable_pulledPlace (firm.placeable known) tidy.walkable.target) ran
  have logs : ∀ other, depot.names other → after.disk.entryAt? (depot.logSpot other) =
      before.disk.entryAt? (depot.logSpot other) := fun other knownOther =>
    wrote.elsewhere _ (firm.source_apart_log known knownOther).2
  have others : ∀ other, depot.names other →
      depot.source other ≠ depot.source name ∨ (∃ failure, outcome = .error failure) →
      after.disk.entryAt? (depot.sourceSpot other) =
        before.disk.entryAt? (depot.sourceSpot other) := by
    intro other knownOther apart
    by_cases same : depot.source other = depot.source name
    · unfold sourceSpot
      rw [same]
      exact wrote.failed (apart.resolve_left fun different => different same)
    · exact wrote.elsewhere _ fun above => same (firm.shared other name knownOther known (Or.inl above)).1
  have stands : outcome = .ok () → ∀ other, depot.source other = depot.source name →
      FileAt after.disk (depot.sourceSpot other) := by
    intro isOk other same
    unfold sourceSpot
    rw [same]
    exact ⟨_, wrote.stands isOk⟩
  refine ⟨?_, wrote.journal, logs, others, stands⟩
  apply tidy.alter wrote.walkable wrote.foreign (wrote.elsewhere _ (firm.file_not_on_way known).1)
  · intro other knownOther
    by_cases same : depot.source other = depot.source name
    · cases outcome with
      | ok value => exact Or.inr (stands rfl other same)
      | error failure => exact Or.inl (others other knownOther (Or.inr ⟨failure, rfl⟩))
    · exact Or.inl (others other knownOther (Or.inl same))
  · exact fun other knownOther => Or.inl (logs other knownOther)

/-- Writing a log changes the files of that log only. -/
theorem Tidy.write_log (firm : depot.Firm) (tidy : depot.Tidy before) (known : depot.names name)
    {instant : String} (ran : (Step.write (depot.log name)
      (logText (depot.source name) instant)).perform before = (outcome, after)) :
    depot.Tidy after ∧ after.journal = before.journal ∧
      (∀ other, depot.names other → after.disk.entryAt? (depot.sourceSpot other) =
        before.disk.entryAt? (depot.sourceSpot other)) ∧
      (∀ other, depot.names other → depot.source other ≠ depot.source name →
        after.disk.entryAt? (depot.logSpot other) = before.disk.entryAt? (depot.logSpot other)) ∧
      (outcome = .ok () → ∀ other, depot.names other → depot.source other = depot.source name →
        FileAt after.disk (depot.logSpot other)) := by
  have wrote := tidy.wrote (ends_log firm known)
    (passable_logPlace (firm.placeable known) tidy.walkable.protocols) ran
  have sources : ∀ other, depot.names other → after.disk.entryAt? (depot.sourceSpot other) =
      before.disk.entryAt? (depot.sourceSpot other) := fun other knownOther =>
    wrote.elsewhere _ (firm.source_apart_log knownOther known).1
  have shares : ∀ other, depot.names other → depot.source other = depot.source name →
      depot.logSpot other = depot.logSpot name := by
    intro other knownOther same
    unfold logSpot
    rw [firm.log_of_source known knownOther same]
  have others : ∀ other, depot.names other →
      depot.source other ≠ depot.source name ∨ (∃ failure, outcome = .error failure) →
      after.disk.entryAt? (depot.logSpot other) = before.disk.entryAt? (depot.logSpot other) := by
    intro other knownOther apart
    by_cases same : depot.source other = depot.source name
    · rw [shares other knownOther same]
      exact wrote.failed (apart.resolve_left fun different => different same)
    · exact wrote.elsewhere _ fun above => same (firm.shared other name knownOther known (Or.inr above)).1
  have stands : outcome = .ok () → ∀ other, depot.names other →
      depot.source other = depot.source name → after.disk.entryAt? (depot.logSpot other) =
        some (.file (.text (logText (depot.source other) instant))) := by
    intro isOk other knownOther same
    rw [shares other knownOther same, same]
    exact wrote.stands isOk
  refine ⟨?_, wrote.journal, sources, fun other knownOther apart =>
    others other knownOther (Or.inl apart), fun isOk other knownOther same =>
      ⟨_, stands isOk other knownOther same⟩⟩
  apply tidy.alter wrote.walkable wrote.foreign (wrote.elsewhere _ (firm.file_not_on_way known).2)
  · exact fun other knownOther => Or.inl (sources other knownOther)
  · intro other knownOther
    by_cases same : depot.source other = depot.source name
    · cases outcome with
      | ok value => exact Or.inr ⟨instant, stands rfl other knownOther same⟩
      | error failure => exact Or.inl (others other knownOther (Or.inr ⟨failure, rfl⟩))
    · exact Or.inl (others other knownOther (Or.inl same))

end Writes

/-! ## One pull -/

/-- The regime of a pull from a workspace: it has seen to the sources it asked for. -/
def regime (depot : Depot) (start : Workspace) : Regime where
  holds present := ∃ asked, depot.Ran start asked present
  later _ _ := True
  stopped := depot.Stopped start
  refl _ := trivial
  trans _ _ := trivial

section Pull

variable {α : Type} {property : Workspace → Prop} {hash : Option String} {known : Option HashTable}

/-- What every outcome of a step keeps, the regime lets it keep. -/
theorem governs_keeping {step : Step α}
    (keeps : step.KeepsThroughout fun present => (depot.regime start).holds present ∧ property present) :
    (depot.regime start).Governs property step fun _ => property := by
  intro before holds here
  refine ⟨fun value after ran => ?_, fun failure after ran => ?_⟩
  · obtain ⟨still, kept⟩ := keeps before _ after ⟨holds, here⟩ ran
    exact ⟨still, trivial, kept⟩
  · obtain ⟨⟨asked, still⟩, _⟩ := keeps before _ after ⟨holds, here⟩ ran
    exact still.stopped

theorem stopped_of_holds (holds : (depot.regime start).holds present) :
    (depot.regime start).stopped present := by
  obtain ⟨asked, ran⟩ := holds
  exact ran.stopped

/-- A source that is fetched has its log, or the write of the log failed. -/
theorem fetchSource_any (firm : depot.Firm) (store : remote.KeepsTo depot.own)
    (known : depot.names name) (progress : depot.Ran start asked before)
    {outcome : Except Failure Unit}
    (ran : (fetchSource remote name (depot.source name) (depot.log name)).perform before =
      (outcome, after)) :
    (∀ failure, outcome = .error failure → depot.Stopped start after) ∧
      (outcome = .ok () → depot.Ran start (asked ++ [name]) after) := by
  unfold fetchSource at ran
  rcases Step.ends_bind ran with ⟨failure, unanswered, rfl⟩ | ⟨text, first, answered, ran⟩
  · obtain ⟨tidy, files, _⟩ := progress.tidy.fetch firm store unanswered
    refine ⟨fun _ _ => ⟨tidy, fun other knownOther alone => Or.inl ?_⟩,
      fun wrong => absurd wrong (by simp)⟩
    exact progress.alone_start knownOther (files _ (firm.guarded_source knownOther))
      (files _ (firm.guarded_log knownOther)) alone
  obtain ⟨tidyFirst, files, asks⟩ := progress.tidy.fetch firm store answered
  rcases Step.ends_bind ran with ⟨failure, unwritten, rfl⟩ | ⟨_, second, wroteSource, ran⟩
  · obtain ⟨tidy, _, logs, sources, _⟩ := tidyFirst.write_source firm known unwritten
    refine ⟨fun _ _ => ⟨tidy, fun other knownOther alone => Or.inl ?_⟩,
      fun wrong => absurd wrong (by simp)⟩
    exact progress.alone_start knownOther
      ((sources other knownOther (Or.inr ⟨failure, rfl⟩)).trans
        (files _ (firm.guarded_source knownOther)))
      ((logs other knownOther).trans (files _ (firm.guarded_log knownOther))) alone
  obtain ⟨tidySecond, journalSecond, logsSecond, sourcesSecond, standsSecond⟩ :=
    tidyFirst.write_source firm known wroteSource
  rw [Step.perform_look_bind] at ran
  have wroteLog : (Step.write (depot.log name)
      (logText (depot.source name) second.instant)).perform second = (outcome, after) := ran
  obtain ⟨tidyLast, journalLast, sourcesLast, logsLast, standsLast⟩ :=
    tidySecond.write_log firm known wroteLog
  have journal : sourcesAsked after.journal = sourcesAsked before.journal ++ [name] := by
    rw [journalLast, journalSecond, asks]
  have others : ∀ other, depot.names other → depot.source other ≠ depot.source name →
      after.disk.entryAt? (depot.sourceSpot other) = before.disk.entryAt? (depot.sourceSpot other) ∧
        after.disk.entryAt? (depot.logSpot other) = before.disk.entryAt? (depot.logSpot other) := by
    intro other knownOther apart
    rw [sourcesLast other knownOther, sourcesSecond other knownOther (Or.inl apart),
      logsLast other knownOther apart, logsSecond other knownOther]
    exact ⟨files _ (firm.guarded_source knownOther), files _ (firm.guarded_log knownOther)⟩
  refine ⟨fun failure isFailure => ⟨tidyLast, fun other knownOther alone => ?_⟩,
    fun isOk => progress.extend tidyLast journal others fun other knownOther same => ?_⟩
  · by_cases same : depot.source other = depot.source name
    · rw [progress.journal] at journal
      obtain ⟨disk, written, rfl⟩ := Step.perform_onDisk wroteLog
      rw [isFailure, ← firm.log_of_source known knownOther same] at written
      exact Or.inr ⟨⟨asked, name, same.symm, journal⟩, _, _, _, written⟩
    · obtain ⟨source, log⟩ := others other knownOther same
      exact Or.inl (progress.alone_start knownOther source log alone)
  · rw [FileAt.congr (sourcesLast other knownOther)]
    exact ⟨standsSecond rfl other same, standsLast isOk other knownOther same⟩

/-- A fetch is governed, and leaves the source where it is. -/
theorem governs_fetchSource (firm : depot.Firm) (store : remote.KeepsTo depot.own)
    (known : depot.names name) :
    (depot.regime start).Governs (fun _ => True)
      (fetchSource remote name (depot.source name) (depot.log name))
      fun _ present => FileAt present.disk (depot.sourceSpot name) := by
  rintro before ⟨asked, progress⟩ _
  refine ⟨fun _ after ran => ?_, fun failure after ran => ?_⟩
  · have fetched := (fetchSource_any firm store known progress ran).2 rfl
    exact ⟨⟨_, fetched⟩, trivial,
      (fetched.written name known ⟨name, List.mem_append_right _ List.mem_cons_self, rfl⟩).1⟩
  · exact (fetchSource_any firm store known progress ran).1 failure rfl

/-- Recording a pulled source leaves the sources and the logs alone. -/
theorem governs_recordPulled (firm : depot.Firm) (known : depot.names name) :
    (depot.regime start).Governs (fun present => FileAt present.disk (depot.sourceSpot name))
      (recordPulled depot.settings remote name (depot.source name) hash) fun _ _ => True := by
  have leading : ∀ {β : Type} {step : Step β},
      (∀ before outcome after, depot.Tidy before → FileAt before.disk (depot.sourceSpot name) →
        step.perform before = (outcome, after) → depot.Leads before after) →
      step.KeepsThroughout fun present => (depot.regime start).holds present ∧
        FileAt present.disk (depot.sourceSpot name) := by
    rintro β step leads before outcome after ⟨⟨asked, progress⟩, stands⟩ ran
    have moved := leads before outcome after progress.tidy stands ran
    exact ⟨⟨asked, progress.leads firm moved⟩,
      (FileAt.congr (moved.files _ (firm.guarded_source known))).2 stands⟩
  have recording : Recording depot.settings remote name (depot.source name) hash fun present =>
      (depot.regime start).holds present ∧ FileAt present.disk (depot.sourceSpot name) := by
    refine ⟨leading ?_, leading ?_, fun text => leading ?_, fun document => leading ?_, leading ?_⟩
    · exact fun before outcome after tidy _ ran => leads_addForeign firm tidy ran
    · intro before outcome after tidy stands ran
      refine leads_updateForeign firm tidy (fun record storable => ?_) (fun record _ => ?_) ran
      · obtain ⟨⟨_, xmir, optimized, discoveredAt⟩, countable⟩ := storable
        refine ⟨⟨fun path member => ?_, xmir, optimized, discoveredAt⟩, countable⟩
        rw [← Option.some.inj member]
        exact isText_place (firm.written.child _) _ _
      · exact Or.inr ⟨known, rfl, stands⟩
    · exact fun before outcome after tidy _ ran => leads_parse tidy ran
    · exact fun before outcome after tidy _ ran => leads_save firm tidy (firm.placeable known) ran
    · intro before outcome after tidy _ ran
      refine leads_updateForeign firm tidy (fun record storable => ?_) (fun record pulled => ?_) ran
      · obtain ⟨⟨source, _, optimized, discoveredAt⟩, countable⟩ := storable
        refine ⟨⟨source, fun path member => ?_, optimized, discoveredAt⟩, countable⟩
        rw [← Option.some.inj member]
        exact isText_place (firm.written.child _) _ _
      · exact Or.inl ⟨pulled, rfl⟩
  exact (governs_keeping recording.recordPulled).telling fun _ _ _ _ => trivial

/-- A source that is kept is a file. -/
theorem Tidy.file_of_exists (firm : depot.Firm) (tidy : depot.Tidy present)
    (known : depot.names name) (there : present.disk.exists? (depot.source name) = true) :
    FileAt present.disk (depot.sourceSpot name) := by
  have noDirectory := (tidy.noDirectory name known).1
  unfold source at there
  rw [exists?_pulledPlace (firm.placeable known) tidy.walkable.target, tidy.walkable.current,
    Option.isSome_iff_exists] at there
  obtain ⟨entry, stands⟩ := there
  cases entry with
  | file content => exact ⟨content, stands⟩
  | directory =>
    unfold Disk.directoryAt sourceSpot source at noDirectory
    rw [stands] at noDirectory
    exact absurd noDirectory (by simp)

theorem governs_pullPinned (firm : depot.Firm) (store : remote.KeepsTo depot.own)
    (known : depot.names name) :
    (depot.regime start).Governs (fun _ => True) (pullPinned depot.settings remote name hash)
      fun _ _ => True := by
  have looked : (depot.regime start).Governs (fun _ => True) (Step.look Workspace.disk)
      fun disk present => disk = present.disk := .look fun _ _ _ => rfl
  have records : (depot.regime start).Governs
      (fun present => FileAt present.disk (depot.sourceSpot name))
      (recordPulled depot.settings remote name (depot.source name) hash) fun _ _ => True :=
    governs_recordPulled firm known
  refine .bind looked fun disk => ?_
  cases choice : pullChoice disk depot.settings.overwrite (pulledPlace depot.settings.target name)
    (logPlace depot.settings.protocols name) with
  | leave => exact .pure fun _ _ _ => trivial
  | fetch =>
    refine .bind ((governs_fetchSource firm store known).from_ fun _ _ _ => trivial) fun _ => ?_
    exact .bind records fun _ => .pure fun _ _ _ => trivial
  | keep =>
    have checked : (depot.regime start).Governs (fun present => disk = present.disk)
        (Step.look fun workspace =>
          isRecorded workspace.foreign name (pulledPlace depot.settings.target name))
        fun _ present => FileAt present.disk (depot.sourceSpot name) := by
      refine .look fun present holds same => ?_
      obtain ⟨asked, progress⟩ := holds
      exact progress.tidy.file_of_exists firm known (same ▸ (pullChoice_keep choice).2)
    refine .bind checked fun recorded => .ite (fun _ => ?_) fun _ => .pure fun _ _ _ => trivial
    exact .bind records fun _ => .pure fun _ _ _ => trivial

theorem leads_table {table : Except Failure HashTable} (tidy : depot.Tidy before)
    (ran : (Step.table remote).perform before = (table, after)) : depot.Leads before after := by
  obtain ⟨slot, journal, rfl, isAsked⟩ := Step.table_frame ran
  refine ⟨⟨?_, tidy.fit, tidy.credited, tidy.noDirectory, tidy.logged⟩, fun _ _ => rfl, ?_⟩
  · exact ⟨tidy.walkable.sound, tidy.walkable.current, tidy.walkable.sorted, tidy.walkable.path,
      tidy.walkable.target, tidy.walkable.protocols, tidy.walkable.catalog⟩
  · rcases isAsked with rfl | rfl
    · rfl
    · exact sourcesAsked_table _

/-- A name that passes the check of places is one that the depot knows. -/
theorem governs_pullName (firm : depot.Firm) (store : remote.KeepsTo depot.own)
    (knows : checkPlace name = .ok () → depot.names name) :
    (depot.regime start).Governs (fun _ => True) (pullName depot.settings remote known name)
      fun _ _ => True := by
  have looked : (depot.regime start).Governs (fun _ => True)
      (Step.look fun workspace => isLocal workspace.foreign name) fun _ _ => True :=
    .look fun _ _ _ => trivial
  have checked : (depot.regime start).Governs (fun _ => True)
      (Step.ofOutcome (checkPlace name)) fun _ _ => checkPlace name = .ok () :=
    .ofOutcome (fun _ passes _ _ _ => passes) fun _ _ _ holds _ => stopped_of_holds holds
  have pins : (depot.regime start).Governs (fun _ => True) (pinned remote known name)
      fun _ _ => True := by
    apply governs_keeping
    apply pinned_keepsThroughout
    rintro before outcome after ⟨⟨asked, progress⟩, _⟩ ran
    exact ⟨⟨asked, progress.leads firm (leads_table progress.tidy ran)⟩, trivial⟩
  refine .bind looked fun left => .ite (fun _ => .pure fun _ _ _ => trivial) fun _ => ?_
  refine .bind checked fun _ => .given (fun passes => ?_) fun _ _ here => here
  refine .bind (pins.from_ fun _ _ _ => trivial) fun pin => ?_
  exact .bind (governs_pullPinned firm store (knows passes)) fun _ => .pure fun _ _ _ => trivial

theorem governs_pullEach (firm : depot.Firm) (store : remote.KeepsTo depot.own) {names : List String}
    (knows : ∀ name ∈ names, checkPlace name = .ok () → depot.names name) :
    (depot.regime start).Governs (fun _ => True) (pullEach depot.settings remote known names)
      fun _ _ => True := by
  induction names generalizing known with
  | nil => exact .pure fun _ _ _ => trivial
  | cons name rest inductionHypothesis =>
    refine .bind (governs_pullName firm store (knows name List.mem_cons_self)) fun pulled => ?_
    refine .bind (inductionHypothesis fun other member => ?_) fun _ => .pure fun _ _ _ => trivial
    exact knows other (List.mem_cons_of_mem name member)

/-- What a pull comes to: it has seen to the sources it asked for, or it was stopped. -/
theorem pull_any (firm : depot.Firm) (store : remote.KeepsTo depot.own) (tidy : depot.Tidy before)
    (meets : ∀ name ∈ referredNames before.disk before.foreign, checkPlace name = .ok () →
      depot.names name) :
    (∀ count after, (pullAll depot.settings remote).Yields before count after →
      ∃ asked, depot.Ran before asked after) ∧
    ∀ failure after, (pullAll depot.settings remote).perform before = (.error failure, after) →
      depot.Stopped before after := by
  have governs : (depot.regime before).Governs (fun _ => True) (pullEach depot.settings remote none
      (referredNames before.disk before.foreign)) fun _ _ => True :=
    governs_pullEach firm store meets
  obtain ⟨yields, stops⟩ := governs before ⟨[], .initial tidy⟩ trivial
  exact ⟨fun count after ran => (yields count after ran).1, stops⟩

end Pull

end Depot

end EoAssembly.Build
