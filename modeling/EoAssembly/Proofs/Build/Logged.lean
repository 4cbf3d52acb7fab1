import EoAssembly.Proofs.Build.Provenance

/-!
Contract: which pulled objects have their provenance logs.

A pull writes the source of an object before its log, and a later pull keeps a source that
is there without asking for its log.  So a log is missing exactly where a pull was stopped
by the failing write of it, when no log stood there yet, until a pull fetches the source
again.

Owns `Depot.History`, with the objects that lost their logs.
-/

namespace EoAssembly.Build

open ObjectName (checkPlace)

variable {before after present : Workspace} {name : String}

namespace Depot

variable {depot : Depot}

/-! ## Pulls of a project -/

/-- The depot where pulls overwrite sources or keep them. -/
def overwriting (depot : Depot) (overwrite : Bool) : Depot :=
  { depot with settings := { depot.settings with overwrite := overwrite } }

theorem Firm.overwriting (firm : depot.Firm) (overwrite : Bool) :
    (depot.overwriting overwrite).Firm :=
  ⟨firm.written, firm.housed, firm.target, firm.protocols, firm.store, firm.checked, firm.hasFile,
    firm.shared⟩

theorem tidy_overwriting {overwrite : Bool} :
    (depot.overwriting overwrite).Tidy present ↔ depot.Tidy present := by
  constructor
  · rintro ⟨walkable, fit, credited, noDirectory, logged⟩
    exact ⟨⟨walkable.sound, walkable.current, walkable.sorted, walkable.path, walkable.target,
      walkable.protocols, walkable.catalog⟩, fit, credited, noDirectory, logged⟩
  · rintro ⟨walkable, fit, credited, noDirectory, logged⟩
    exact ⟨⟨walkable.sound, walkable.current, walkable.sorted, walkable.path, walkable.target,
      walkable.protocols, walkable.catalog⟩, fit, credited, noDirectory, logged⟩

/-- A project before its first pull: the target and the protocols directory are empty. -/
structure Fresh (depot : Depot) (present : Workspace) : Prop where
  walkable : Walkable depot.settings depot.file depot.current present
  empty : ∀ location, Beneath (depot.settings.target.goal depot.current) location ∨
    Beneath (depot.settings.protocols.goal depot.current) location →
    present.disk.entryAt? location = none
  records : present.foreign.records = []

/-- What may happen between two pulls: documents and records are made and changed, the catalog is
opened again, and the disk fails as it will.  The sources and the logs stay, and nothing is newly
marked as pulled. -/
structure Between (depot : Depot) (before after : Workspace) : Prop where
  walkable : Walkable depot.settings depot.file depot.current after
  fit : after.foreign.Fit
  files : ∀ location, Guarded depot.settings depot.current location →
    after.disk.entryAt? location = before.disk.entryAt? location
  credited : ∀ id origin, Credited after id origin → Credited before id origin

/-- A history of pulls, with the objects that lost their logs: a pull that is stopped loses those
whose source stands without a log when its log could not be written, and those that were lost
before; a pull that succeeds finds those again that it fetches. -/
inductive History (depot : Depot) : (String → Prop) → Workspace → Prop where
  | fresh {present : Workspace} (fresh : depot.Fresh present) : History depot (fun _ => False) present
  | between {lost : String → Prop} {before after : Workspace} (earlier : History depot lost before)
    (between : depot.Between before after) : History depot lost after
  | pulled {lost : String → Prop} {before after : Workspace} {remote : Remote} {overwrite : Bool}
    {count : Nat} {fetched : List String} (earlier : History depot lost before)
    (store : remote.KeepsTo depot.own)
    (meets : ∀ name ∈ referredNames before.disk before.foreign, checkPlace name = .ok () →
      depot.names name)
    (ran : (pullAll (depot.overwriting overwrite).settings remote).Yields before count after)
    (asked : sourcesAsked after.journal = sourcesAsked before.journal ++ fetched) :
    History depot (fun name => lost name ∧ ¬depot.Asked fetched name) after
  | stopped {lost : String → Prop} {before after : Workspace} {remote : Remote} {overwrite : Bool}
    {failure : Failure} (earlier : History depot lost before) (store : remote.KeepsTo depot.own)
    (meets : ∀ name ∈ referredNames before.disk before.foreign, checkPlace name = .ok () →
      depot.names name)
    (ran : (pullAll (depot.overwriting overwrite).settings remote).perform before =
      (.error failure, after)) :
    History depot (fun name => depot.Alone after.disk name ∧
      (lost name ∨ depot.LogFailed before after name)) after

variable {lost : String → Prop}

theorem Fresh.tidy (firm : depot.Firm) (fresh : depot.Fresh present) : depot.Tidy present := by
  have nothing : ∀ name, depot.names name →
      present.disk.entryAt? (depot.sourceSpot name) = none ∧
        present.disk.entryAt? (depot.logSpot name) = none := by
    intro name known
    have hasLog := beneath_place isExtension_log (firm.checked name known)
      (firm.hasFile name known "log") depot.settings.protocols depot.current
    refine ⟨fresh.empty _ (Or.inl ?_), fresh.empty _ (Or.inr hasLog)⟩
    unfold sourceSpot source
    rw [goal_pulledPlace depot.settings depot.current (firm.placeable known)]
    exact ⟨List.prefix_append _ _, by simp⟩
  have noRecord : ∀ id origin, ¬MarksPulled present.foreign id origin := by
    rintro id origin ⟨record, found, _⟩
    have member := Catalog.mem_of_find? found
    rw [fresh.records] at member
    exact absurd member List.not_mem_nil
  refine ⟨fresh.walkable, ⟨fresh.walkable.sorted, ?_⟩, fun id origin credited => ?_, ?_, ?_⟩
  · rw [fresh.records]
    simp
  · rcases credited with marks | ⟨stored, opened, record, found, _⟩
    · exact absurd marks (noRecord id origin)
    · have file : present.disk.exists? present.foreign.path = false := by
        have beneath : Beneath (depot.settings.target.goal depot.current)
            (depot.file.goal depot.current) := by
          unfold Depot.file
          rw [goal_catalogPath]
          exact ⟨List.prefix_append _ _, by simp⟩
        rw [Disk.not_exists?_iff, fresh.walkable.path,
          Disk.entry_of_name firm.housed.ends fresh.walkable.catalog, fresh.walkable.current,
          fresh.empty _ (Or.inl beneath)]
      have none := (Catalog.openAt_ok opened).2.2.resolve_right (by simp [file])
      have member := Catalog.mem_of_find? found
      rw [none] at member
      exact absurd member List.not_mem_nil
  · intro name known
    exact ⟨Disk.directoryAt_of_none (nothing name known).1,
      Disk.directoryAt_of_none (nothing name known).2⟩
  · intro name known content stands
    rw [(nothing name known).2] at stands
    exact absurd stands (by simp)

/-- After any history, the objects that lost their logs are those whose source stands alone. -/
theorem History.tidy (firm : depot.Firm) (history : depot.History lost present) :
    depot.Tidy present ∧ ∀ name, depot.names name → (lost name ↔ depot.Alone present.disk name) := by
  induction history with
  | fresh fresh =>
    have tidy := fresh.tidy firm
    refine ⟨tidy, fun name known => ⟨False.elim, fun alone => ?_⟩⟩
    obtain ⟨content, stands⟩ := alone.1
    have beneath : Beneath (depot.settings.target.goal depot.current) (depot.sourceSpot name) := by
      unfold sourceSpot source
      rw [goal_pulledPlace depot.settings depot.current (firm.placeable known)]
      exact ⟨List.prefix_append _ _, by simp⟩
    rw [fresh.empty _ (Or.inl beneath)] at stands
    exact absurd stands (by simp)
  | between earlier between inductionHypothesis =>
    obtain ⟨tidy, lostIff⟩ := inductionHypothesis
    refine ⟨tidy.same firm between.walkable between.fit between.files fun id origin credited =>
      Or.inl (between.credited id origin credited), fun name known => ?_⟩
    rw [Alone.congr (between.files _ (firm.guarded_source known))
      (between.files _ (firm.guarded_log known))]
    exact lostIff name known
  | @pulled lost before after remote overwrite count fetched earlier store meets ran asked
      inductionHypothesis =>
    obtain ⟨tidy, lostIff⟩ := inductionHypothesis
    obtain ⟨names, progress⟩ := (pull_any (firm.overwriting overwrite) store
      (tidy_overwriting.2 tidy) meets).1 _ _ ran
    have isFetched : names = fetched := List.append_cancel_left (progress.journal.symm.trans asked)
    refine ⟨tidy_overwriting.1 progress.tidy, fun name known => ?_⟩
    subst isFetched
    exact (and_congr_left' (lostIff name known)).trans (progress.alone_iff known).symm
  | @stopped lost before after remote overwrite failure earlier store meets ran inductionHypothesis =>
    obtain ⟨tidy, lostIff⟩ := inductionHypothesis
    have stop := (pull_any (firm.overwriting overwrite) store (tidy_overwriting.2 tidy) meets).2 _ _ ran
    refine ⟨tidy_overwriting.1 stop.tidy, fun name known => ⟨fun both => both.1, fun alone => ?_⟩⟩
    exact ⟨alone, (stop.alone name known alone).imp_left (lostIff name known).2⟩

/-- What stands at the place of a log reads as a log of the source. -/
theorem Tidy.reads_log_iff (firm : depot.Firm) (tidy : depot.Tidy present)
    (known : depot.names name) :
    (∃ instant, present.disk.readText (depot.log name) = .ok (logText (depot.source name) instant)) ↔
      FileAt present.disk (depot.logSpot name) := by
  have entry : present.disk.entry? (depot.log name) = present.disk.entryAt? (depot.logSpot name) := by
    have found := Disk.entry_of_name (ends_log firm known)
      (passable_logPlace (firm.placeable known) tidy.walkable.protocols)
    rw [tidy.walkable.current] at found
    exact found
  simp only [Disk.readText_eq_ok, entry]
  constructor
  · rintro ⟨instant, stands⟩
    exact ⟨_, stands⟩
  · rintro ⟨content, stands⟩
    obtain ⟨instant, rfl⟩ := tidy.logged name known content stands
    exact ⟨instant, stands⟩

/-- Opening the catalog again is nothing that pulls would see. -/
theorem Tidy.between_opened (tidy : depot.Tidy before) {stored : Catalog}
    (opened : Catalog.openAt before.disk before.foreign.path = .ok stored) :
    depot.Between before { before with foreign := stored } := by
  have fit := Catalog.fit_openAt opened
  have isPath := (Catalog.openAt_ok opened).1
  refine ⟨?_, fit, fun _ _ => rfl, fun id origin credited => Or.inr ⟨stored, opened, ?_⟩⟩
  · exact ⟨tidy.walkable.sound, tidy.walkable.current, fit.sorted, isPath.trans tidy.walkable.path,
      tidy.walkable.target, tidy.walkable.protocols, tidy.walkable.catalog⟩
  · rcases credited with marks | ⟨again, openedAgain, marks⟩
    · exact marks
    · change Catalog.openAt before.disk stored.path = .ok again at openedAgain
      rw [isPath, opened] at openedAgain
      exact Except.ok.inj openedAgain ▸ marks

end Depot

/-- After any history of pulls, an object that is marked as pulled has its source recorded, and its
log stands and names that source, unless a pull that was stopped by the failing write of the log
lost it. -/
theorem pulled_log_stands_iff {depot : Depot} {lost : String → Prop} {present : Workspace}
    (firm : depot.Firm) (history : depot.History lost present) {record : Record}
    (member : record ∈ present.foreign.records) (pulled : record.pulled = true) :
    ∃ source, record.source = some source ∧
      ((∃ instant, present.disk.readText (logPlace depot.settings.protocols record.id) =
        .ok (logText source instant)) ↔ ¬lost record.id) := by
  obtain ⟨tidy, lostIff⟩ := history.tidy firm
  have marks : Credited present record.id record.source :=
    Or.inl ⟨record, Catalog.find?_of_mem tidy.fit.sorted member, pulled, rfl⟩
  obtain ⟨known, isSource, stands⟩ := tidy.credited _ _ marks
  have reads : (∃ instant, present.disk.readText (logPlace depot.settings.protocols record.id) =
      .ok (logText (depot.source record.id) instant)) ↔ FileAt present.disk (depot.logSpot record.id) :=
    tidy.reads_log_iff firm known
  refine ⟨_, isSource, ?_⟩
  rw [lostIff _ known, reads]
  exact ⟨fun log alone => alone.2 log, fun kept => not_not.1 fun none => kept ⟨stands, none⟩⟩

/-! ## A log that gets lost -/

/-- The depot of a project that refers to `b`. -/
def sampleDepot : Depot := ⟨sampleSettings, ["w"], fun _ => False, fun name => name = "b"⟩

/-- A project where nothing was built, with a document that refers to `b`. -/
def unbuiltStart : Workspace :=
  { sampleStart with
    disk := ⟨[(["w"], .directory), (["w", "d.xmir"], .file (.text
      "<program><objects><o base=\x22b\x22/></objects></program>"))], ["w"], []⟩
    foreign := ⟨catalogPath sampleSettings.target, []⟩ }

/-- The catalog file where the document is the optimized one of `a`. -/
def referringText : String := "[\x7b\x22id\x22:\x22a\x22,\x22optimized\x22:\x22d.xmir\x22\x7d]"

/-- The project with this catalog, on a disk that will refuse the second file that is written. -/
def failingStart : Workspace :=
  { unbuiltStart with
    disk := ⟨unbuiltStart.disk.entries ++ [(["w", "t"], .directory),
      (["w", "t", "eo-foreign.json"], .file (.text referringText))], ["w"], [false, true]⟩
    foreign := ⟨catalogPath sampleSettings.target,
      [{ Record.ofId "a" with optimized := some (.ofText "d.xmir") }]⟩ }

/-- What the first pull comes to. -/
def failedRun : Except Failure Nat × Workspace :=
  (pullAll sampleSettings sampleRemote).perform failingStart

/-- What a pull comes to that keeps the source that it finds. -/
def keepingRun : Except Failure Nat × Workspace :=
  (pullAll sampleSettings sampleRemote).perform failedRun.2

/-- What a pull comes to that overwrites the source that it finds. -/
def overwritingRun : Except Failure Nat × Workspace :=
  (pullAll { sampleSettings with overwrite := true } sampleRemote).perform failedRun.2

/-- What the pulls of the project come to. -/
theorem failing_facts :
    (referredNames failingStart.disk failingStart.foreign = ["b"] ∧
      Catalog.openAt failingStart.disk failingStart.foreign.path = .ok failingStart.foreign ∧
      failingStart.disk.exists? (sampleSettings.target.child pulledDirectory) = false ∧
      failingStart.disk.exists? sampleSettings.protocols = false) ∧
    (failedRun.1 = .error (Document.writeRefused (.ofText "p/b.log") .noSpace) ∧
      referredNames failedRun.2.disk failedRun.2.foreign = ["b"] ∧
      Catalog.openAt failedRun.2.disk failedRun.2.foreign.path = .ok failedRun.2.foreign) ∧
    (overwritingRun.1 = .ok 1 ∧
      sourcesAsked overwritingRun.2.journal = sourcesAsked failedRun.2.journal ++ ["b"] ∧
      ∃ record ∈ overwritingRun.2.foreign.records, record.id = "b" ∧ record.pulled = true ∧
        record.source = some (pulledPlace sampleSettings.target "b")) ∧
    keepingRun.1 = .ok 0 ∧
      keepingRun.2.disk.readText (logPlace sampleSettings.protocols "b") = .error .missing ∧
      ∃ record ∈ keepingRun.2.foreign.records, record.id = "b" ∧ record.pulled = true := by
  decide +kernel

theorem referred_failing : referredNames failingStart.disk failingStart.foreign = ["b"] :=
  failing_facts.1.1

theorem opened_failing : Catalog.openAt failingStart.disk failingStart.foreign.path =
    .ok failingStart.foreign :=
  failing_facts.1.2.1

theorem failedRun_facts : failedRun.1 = .error (Document.writeRefused (.ofText "p/b.log") .noSpace) ∧
    referredNames failedRun.2.disk failedRun.2.foreign = ["b"] ∧
    Catalog.openAt failedRun.2.disk failedRun.2.foreign.path = .ok failedRun.2.foreign :=
  failing_facts.2.1

theorem failedRun_ran : (pullAll sampleSettings sampleRemote).perform failingStart =
    (.error (Document.writeRefused (.ofText "p/b.log") .noSpace), failedRun.2) := by
  rw [← failedRun_facts.1]
  exact (Prod.eta failedRun).symm

theorem firm_sampleDepot : sampleDepot.Firm where
  written := by decide
  housed := ⟨by decide, Path.endsInName_iff.2 (by decide), by decide⟩
  target := by decide
  protocols := by decide
  store _ owned := owned.elim
  checked := by
    rintro name rfl
    decide +kernel
  hasFile := by
    rintro name rfl
    exact hasFile_referred (referred_failing ▸ List.mem_singleton_self "b")
  shared := by
    rintro name other rfl rfl _
    exact ⟨rfl, rfl⟩

/-- Whatever is built in the project, its places can be reached. -/
theorem walkable_sampleDepot {present : Workspace} (sound : present.disk.Sound)
    (current : present.disk.current = ["w"]) (sorted : present.foreign.Sorted)
    (path : present.foreign.path = catalogPath sampleSettings.target) :
    Walkable sampleSettings sampleDepot.file ["w"] present := by
  have straight : ∀ path ∈ [sampleSettings.target, sampleSettings.protocols, sampleDepot.file],
      path.left ["w"] = [] := by
    decide
  have passable : ∀ path ∈ [sampleSettings.target, sampleSettings.protocols, sampleDepot.file],
      present.disk.Passable path := by
    intro path member passed above
    rw [current, straight path member] at above
    exact absurd above List.not_mem_nil
  exact ⟨sound, current, sorted, path, passable _ (by simp), passable _ (by simp),
    passable _ (by simp)⟩

/-- A project where nothing was built is fresh. -/
theorem fresh_sampleDepot : sampleDepot.Fresh unbuiltStart where
  walkable := walkable_sampleDepot (Disk.sound_of_entries (by decide) (by decide)) rfl List.Pairwise.nil rfl
  empty location beneath := by
    have other : location ≠ ["w"] ∧ location ≠ ["w", "d.xmir"] ∧ location ≠ [] := by
      refine ⟨?_, ?_, ?_⟩ <;>
        (rintro rfl; exact absurd beneath (by unfold Beneath; decide))
    unfold Disk.entryAt?
    rw [if_neg other.2.2]
    apply List.lookup_eq_none_iff.2
    simp [unbuiltStart, other.1, other.2.1]
  records := rfl

theorem between_sampleDepot : sampleDepot.Between unbuiltStart failingStart where
  walkable := walkable_sampleDepot (Disk.sound_of_entries (by decide) (by decide)) rfl
    (List.pairwise_singleton _ _) rfl
  fit := Catalog.fit_openAt opened_failing
  files location guarded := by
    have other : location ≠ ["w", "t"] ∧ location ≠ ["w", "t", "eo-foreign.json"] := by
      constructor <;> (rintro rfl; exact absurd guarded (by unfold Guarded; decide +kernel))
    have looked : failingStart.disk.entries.lookup location =
        unbuiltStart.disk.entries.lookup location := by
      have added : ([(["w", "t"], Entry.directory), (["w", "t", "eo-foreign.json"],
          .file (.text referringText))] : List (Location × Entry)).lookup location = none :=
        List.lookup_eq_none_iff.2 (by simp [other.1, other.2])
      unfold failingStart
      rw [List.lookup_append, added, Option.or_none]
    unfold Disk.entryAt?
    rw [looked]
  credited id origin credited := by
    have nothing : ¬MarksPulled failingStart.foreign id origin := by
      rintro ⟨record, found, pulled, _⟩
      rw [List.mem_singleton.1 (Catalog.mem_of_find? found)] at pulled
      exact absurd pulled (by decide)
    rcases credited with marks | ⟨stored, opened, marks⟩
    · exact absurd marks nothing
    · exact absurd (Except.ok.inj (opened.symm.trans opened_failing) ▸ marks) nothing

/-- The first pull is stopped at the log of `b`. -/
theorem failed_history : ∃ lost, sampleDepot.History lost failedRun.2 := by
  have earlier := Depot.History.between (.fresh fresh_sampleDepot) between_sampleDepot
  have ran : (pullAll (sampleDepot.overwriting false).settings sampleRemote).perform failingStart =
      (.error (Document.writeRefused (.ofText "p/b.log") .noSpace), failedRun.2) := failedRun_ran
  exact ⟨_, .stopped earlier (fetchOf_keepsTo _ _ _)
    (fun name member _ => List.mem_singleton.1 (referred_failing ▸ member)) ran⟩

/-- An overwriting pull finds the log again that a pull lost. -/
theorem refetched_log_stands : sampleDepot.Firm ∧
    ∃ lost, sampleDepot.History lost overwritingRun.2 ∧
      ∃ record ∈ overwritingRun.2.foreign.records, record.pulled = true ∧ record.id = "b" ∧
        ∃ source, record.source = some source ∧ ∃ instant, overwritingRun.2.disk.readText
          (logPlace sampleSettings.protocols "b") = .ok (logText source instant) := by
  obtain ⟨lost, earlier⟩ := failed_history
  obtain ⟨_, referred, opened⟩ := failedRun_facts
  have reopened : sampleDepot.History lost failedRun.2 :=
    .between earlier ((earlier.tidy firm_sampleDepot).1.between_opened opened)
  obtain ⟨_, _, ⟨answer, asked, record, member, isB, pulled, _⟩, _⟩ := failing_facts
  have ran : (pullAll (sampleDepot.overwriting true).settings sampleRemote).Yields failedRun.2 1
      overwritingRun.2 := Step.yields_perform answer
  have history : sampleDepot.History (fun name => lost name ∧ ¬sampleDepot.Asked ["b"] name)
      overwritingRun.2 :=
    .pulled reopened (fetchOf_keepsTo _ _ _)
      (fun name member _ => List.mem_singleton.1 (referred ▸ member)) ran asked
  obtain ⟨source, isSource, stands⟩ := pulled_log_stands_iff firm_sampleDepot history member pulled
  rw [isB] at stands
  refine ⟨firm_sampleDepot, _, history, record, member, pulled, isB, source, isSource, stands.2 ?_⟩
  exact fun wrong => wrong.2 ⟨"b", List.mem_cons_self, rfl⟩

/-- Objects are recorded as pulled whose logs are missing: the pull that keeps the source of `b` does
not ask for its log. -/
theorem kept_source_without_log :
    ¬∀ (settings : Settings) (remote : Remote) (start middle final : Workspace) (failure : Failure)
      (count : Nat), remote.KeepsTo (fun _ => False) → start.disk.Sound →
      start.disk.exists? (settings.target.child pulledDirectory) = false →
      start.disk.exists? settings.protocols = false →
      (pullAll settings remote).perform start = (.error failure, middle) →
      Catalog.openAt middle.disk middle.foreign.path = .ok middle.foreign →
      (pullAll settings remote).Yields middle count final →
      ∀ record ∈ final.foreign.records, record.pulled = true →
        ∃ source instant, record.source = some source ∧
          final.disk.readText (logPlace settings.protocols record.id) = .ok (logText source instant) := by
  intro logged
  obtain ⟨⟨_, _, noSources, noLogs⟩, _, _, answer, missing, record, member, isB, pulled⟩ :=
    failing_facts
  have ran : (pullAll sampleSettings sampleRemote).Yields failedRun.2 0 keepingRun.2 :=
    Step.yields_perform answer
  obtain ⟨source, instant, _, stands⟩ := logged _ _ _ _ _ _ _ (fetchOf_keepsTo _ _ _)
    (Disk.sound_of_entries (by decide) (by decide)) noSources noLogs failedRun_ran failedRun_facts.2.2 ran record member
    pulled
  rw [isB, missing] at stands
  exact absurd stands (by simp)

end EoAssembly.Build
