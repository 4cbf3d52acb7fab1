import EoAssembly.Proofs.Build.Resuming

/-!
Contract: every operation of a build keeps the regime of a site.

A record is changed to one that fits, and a piece is written when it may be.  Where the
catalog file can't be written, the catalog that it holds still tells what stands.  What
the outside answers is what the site expects, or a failure.  On flawless grounds every
operation succeeds when what it works on is there.

Owns `Site.Suits`, `Site.Allowed`, and one rule for each operation.

Does not own: the stages that are made of these operations.
-/

namespace EoAssembly.Build

open Disk (Touches)

namespace Site

/-- Settings and an outside of a build on a site: the store keeps no files of its own, and
each answer is one that the site expects. -/
structure Suits (site : Site) (settings : Settings) (remote : Remote) : Prop where
  sources : settings.sources = site.settings.sources
  target : settings.target = site.settings.target
  protocols : settings.protocols = site.settings.protocols
  versions : settings.withVersions = site.settings.withVersions
  project : site.exact → settings.project.version = site.settings.project.version
  overwrites : ¬site.keeps → settings.overwrite = true
  leaves : site.exact → settings.overwrite = false
  parse : ∀ id source made, remote.parse id source = .ok made → site.parse id source = .ok made
  fetch : ∀ name disk, (remote.fetch name disk).2 = disk
  answers : ∀ name disk text, (remote.fetch name disk).1 = .ok text → site.answers name text
  table : site.exact → ∀ disk text, remote.table disk = .ok text → site.tags = .ok text
  parses : site.flawless → ∀ id source made, site.parse id source = .ok made →
    remote.parse id source = .ok made
  fetches : site.flawless → ∀ name, site.involved name → ¬site.Registers name →
    ∀ disk, ∃ text, (remote.fetch name disk).1 = .ok text
  tables : site.flawless → ∀ disk, remote.table disk = site.tags

/-- A changed record may take the place of an old one. -/
structure Allowed (site : Site) (enrolled : Prop) (disk : Disk) (catalog : Catalog)
    (old new : Record) : Prop where
  within : old.Within new
  fits : site.Fits disk (catalog.put new) new
  /-- Only a record that is equal counts as the same. -/
  same : new.same old = true → new = old
  source : enrolled → site.Registers new.id → new.source = old.source

variable {site : Site} {enrolled : Prop} {present : Workspace} {disk next : Disk}
  {catalog : Catalog} {piece : Piece} {id name text : String} {path : Path} {record : Record}
  {settings : Settings} {remote : Remote} {α : Type}

/-! ## Steps that change no file -/

section Plain

variable {pre : Workspace → Prop}

/-- Looking at a workspace tells what it shows. -/
theorem governs_look {view : Workspace → α} :
    (site.regime enrolled).Governs pre (Step.look view) fun seen present =>
      seen = view present ∧ pre present :=
  .look fun _ _ here => ⟨rfl, here⟩

/-- An outcome that was computed changes nothing. -/
theorem governs_outcome {outcome : Except Failure α}
    (able : site.flawless → ∀ present, site.Working enrolled present → pre present →
      ∃ value, outcome = .ok value) :
    (site.regime enrolled).Governs pre (Step.ofOutcome outcome) fun value present =>
      outcome = .ok value ∧ pre present := by
  refine .ofOutcome (fun _ same _ _ here => ⟨same, here⟩) fun failure isError present working here =>
    ⟨fun flawless => ?_, Working.resumable working⟩
  obtain ⟨value, isOk⟩ := able flawless present working here
  exact absurd (isError.symm.trans isOk) (by simp)

theorem governs_load
    (able : site.flawless → ∀ present, site.Working enrolled present → pre present →
      ∃ document, Document.load present.disk path = .ok document) :
    (site.regime enrolled).Governs pre (Step.load path) fun document present =>
      Document.load present.disk path = .ok document ∧ pre present := by
  refine .load (fun _ _ here _ loads => ⟨loads, here⟩) fun present working here failure isError =>
    ⟨fun flawless => ?_, Working.resumable working⟩
  obtain ⟨document, loads⟩ := able flawless present working here
  exact absurd (isError.symm.trans loads) (by simp)

/-- A working workspace stays one when neither its disk nor a catalog changes. -/
theorem Working.silent {before : Workspace} (working : site.Working enrolled before)
    (after : Workspace) (disk : after.disk = before.disk) (foreign : after.foreign = before.foreign)
    (external : after.external = before.external)
    (slot : site.exact → ∀ text ∈ after.slot.text, site.tags = .ok text) :
    site.Working enrolled after ∧ site.Onward before after := by
  constructor
  · refine ⟨?_, ?_, ?_, ?_, ?_, ?_, slot, ?_, ?_⟩
    · rw [disk]; exact working.laid
    · rw [disk, foreign]; exact working.tells
    · rw [disk, foreign]; exact working.filed
    · rw [external]; exact working.exports
    · rw [disk, external]; exact working.filedExternal
    · rw [disk]; exact working.neat
    · rw [foreign]; exact working.enrolled
    · rw [disk]; exact working.calm
  · refine ⟨?_, ?_, ?_, ?_, ?_⟩
    · rw [foreign]
      exact .refl _
    · rw [disk]
      exact fun _ _ _ stands => stands
    · rw [disk]
      exact fun _ _ _ holds => holds
    · rw [disk]
      exact fun _ _ _ _ holds => holds
    · rw [disk]
      exact fun _ _ answered => answered

variable (said : Disk → Catalog → Prop)

theorem governs_parse (suits : site.Suits settings remote) {source : String}
    (able : site.flawless → ∃ made, site.parse id source = .ok made) :
    (site.regime enrolled).Governs (fun present => said present.disk present.foreign)
      (Step.parse remote id source) fun made present =>
        site.parse id source = .ok made ∧ said present.disk present.foreign := by
  refine Regime.governs_of_ends fun before working here outcome after ran => ?_
  obtain ⟨answers, rfl⟩ := Prod.mk.inj ran
  obtain ⟨still, onward⟩ := Working.silent working
    { before with journal := before.journal ++ [.document id] } rfl rfl rfl working.slot
  cases outcome with
  | ok made => exact ⟨still, onward, suits.parse id source made answers, here⟩
  | error failure =>
    refine ⟨fun flawless => ?_, still.resumable⟩
    obtain ⟨made, parses⟩ := able flawless
    exact absurd (answers.symm.trans (suits.parses flawless id source made parses)) (by simp)

theorem governs_fetch (suits : site.Suits settings remote)
    (able : site.flawless → site.involved name ∧ ¬site.Registers name) :
    (site.regime enrolled).Governs (fun present => said present.disk present.foreign)
      (Step.fetch remote name) fun text present =>
        site.answers name text ∧ said present.disk present.foreign := by
  refine Regime.governs_of_ends fun before working here outcome after ran => ?_
  have same := suits.fetch name before.disk
  obtain ⟨answers, rfl⟩ := Prod.mk.inj ran
  obtain ⟨still, onward⟩ := Working.silent working { before with
    disk := (remote.fetch name before.disk).2, journal := before.journal ++ [.source name] }
    same rfl rfl working.slot
  cases outcome with
  | ok text =>
    refine ⟨still, onward, suits.answers name before.disk text answers, ?_⟩
    simp only [same]
    exact here
  | error failure =>
    refine ⟨fun flawless => ?_, still.resumable⟩
    obtain ⟨involved, foreign⟩ := able flawless
    obtain ⟨text, fetched⟩ := suits.fetches flawless name involved foreign before.disk
    exact absurd (answers.symm.trans fetched) (by simp)

theorem governs_table (firm : site.Firm) (suits : site.Suits settings remote)
    (able : site.flawless → ∃ text table, site.tags = .ok text ∧ HashTable.ofText text = .ok table) :
    (site.regime enrolled).Governs (fun present => said present.disk present.foreign)
      (Step.table remote) fun table present =>
        (site.exact → ∃ text, site.tags = .ok text ∧ HashTable.ofText text = .ok table) ∧
          said present.disk present.foreign := by
  intro before working here
  have fills : ∀ text, remote.table before.disk = .ok text → site.exact → site.tags = .ok text :=
    fun text answers exact_ => suits.table exact_ before.disk text answers
  have silent : ∀ text, remote.table before.disk = .ok text →
      site.Working enrolled { before with
        slot := ⟨some text⟩, journal := before.journal ++ [.table] } ∧
      site.Onward before { before with
        slot := ⟨some text⟩, journal := before.journal ++ [.table] } := by
    refine fun text answers => working.silent _ rfl rfl rfl fun exact_ other member => ?_
    rw [← Option.some.inj (Option.mem_def.1 member)]
    exact fills text answers exact_
  refine ⟨fun table after ran => ?_, fun failure after ran => ?_⟩
  · cases Step.perform_table_iff.1 ran with
    | kept filled reads =>
      obtain ⟨still, onward⟩ := working.silent before rfl rfl rfl working.slot
      exact ⟨still, onward, fun exact_ => ⟨_, working.slot exact_ _ filled, reads⟩, here⟩
    | loaded empty answers reads =>
      obtain ⟨still, onward⟩ := silent _ answers
      exact ⟨still, onward, fun exact_ => ⟨_, fills _ answers exact_, reads⟩, here⟩
  · have readable : site.flawless → ∀ text, site.tags = .ok text →
        HashTable.ofText text ≠ .error failure := by
      intro flawless text isTags wrong
      obtain ⟨other, table, isOther, isTable⟩ := able flawless
      rw [Except.ok.inj (isTags.symm.trans isOther), isTable] at wrong
      exact absurd wrong (by simp)
    cases Step.perform_table_iff.1 ran with
    | kept filled reads =>
      exact ⟨fun flawless => readable flawless _
        (working.slot (firm.able flawless).exact _ filled) reads, working.resumable⟩
    | loaded empty answers reads =>
      exact ⟨fun flawless => readable flawless _ (fills _ answers (firm.able flawless).exact) reads,
        (silent _ answers).1.resumable⟩
    | refused empty answers =>
      obtain ⟨still, _⟩ := working.silent { before with journal := before.journal ++ [.table] }
        rfl rfl rfl working.slot
      refine ⟨fun flawless => ?_, still.resumable⟩
      obtain ⟨text, _, isTags, _⟩ := able flawless
      rw [suits.tables flawless, isTags] at answers
      exact absurd answers (by simp)

end Plain

/-! ## Records -/

section Records

variable (firm : site.Firm) {outcome : Except Failure Unit}

include firm

/-- On flawless grounds both catalogs can be persisted, and no failure is forced after it. -/
theorem Working.persists {file : String} (working : site.Working enrolled present)
    (flawless : site.flawless) (known : file ∈ catalogNames)
    (path : catalog.path = site.settings.target.child file)
    (ran : catalog.persist present.disk = (outcome, next)) : outcome = .ok () ∧ next.Calm := by
  have able := firm.able flawless
  obtain ⟨last, persisted, calm⟩ := persist_able firm able working.laid (working.neat able.exact)
    (working.calm flawless) known path
  obtain ⟨rfl, rfl⟩ := Prod.mk.inj (ran.symm.trans persisted)
  exact ⟨rfl, calm⟩

/-- A record that fits may be put and persisted. -/
theorem Working.put (working : site.Working enrolled present) (record : Record)
    (within : ∀ old, present.foreign.find? record.id = some old → old.Within record)
    (fits : site.Fits present.disk (present.foreign.put record) record)
    (source : enrolled → site.Registers record.id → ∀ old,
      present.foreign.find? record.id = some old → record.source = old.source)
    (ran : (present.foreign.put record).persist present.disk = (outcome, next)) :
    (site.regime enrolled).Ends present (fun _ _ => True) outcome
      { present with foreign := present.foreign.put record, disk := next } := by
  have known : Catalogs.foreignFile ∈ catalogNames := List.mem_cons_self
  have knownExternal : Catalogs.externalFile ∈ catalogNames := List.mem_cons_of_mem _ List.mem_cons_self
  have path : (present.foreign.put record).path =
      site.settings.target.child Catalogs.foreignFile := working.tells.path
  obtain ⟨laid, same⟩ := persist_pieces firm working.laid known path ran
  obtain ⟨written, failed⟩ := persist_filed firm working.laid known path ran
  have neat : site.exact → site.Neat next := fun exact_ =>
    persist_neat firm (firm.exact exact_) working.laid (working.neat exact_) known path ran
  have filedExternal := working.filedExternal.persist_other firm working.laid knownExternal known
    (by decide) working.exports.path path ran
  cases outcome with
  | ok value =>
    refine ⟨⟨laid, (working.tells.put within fits).still same, written rfl, working.exports,
      filedExternal, neat, working.slot, fun isEnrolled id file last => ?_, fun flawless =>
        (working.persists firm flawless known path ran).2⟩, ?_, trivial⟩
    · obtain ⟨old, found, isSource⟩ := working.enrolled isEnrolled id file last
      by_cases here : record.id = id
      · rw [← here] at found last ⊢
        refine ⟨record, Catalog.find?_put_same _ _, ?_⟩
        rw [source isEnrolled (registers_iff.2 ⟨file, last⟩) old found]
        exact isSource
      · exact ⟨old, (Catalog.find?_put_other _ here).trans found, isSource⟩
    · exact ⟨Catalog.grows_put within,
        fun piece id live there => (exists_congr fun content => same piece id content live).2 there,
        fun id content live => (same _ id content live).2,
        fun id content live _ => (same _ id content live).2,
        fun id live answered content holds => answered content ((same _ id content live).1 holds)⟩
  | error failure =>
    refine ⟨fun flawless => ?_, laid, neat, present.foreign, present.external,
      working.tells.still same, failed failure rfl _ working.tells.path working.filed,
      working.exports, filedExternal⟩
    exact absurd (working.persists firm flawless known path ran).1 (by simp)

/-- A record may always be added for an object that may come up. -/
theorem governs_add (involved : site.involved id) (property : Record → Prop)
    (fresh : property (.ofId id)) :
    (site.regime enrolled).Governs
      (fun present => ∀ record, present.foreign.find? id = some record → property record)
      (Step.addForeign id) fun record present =>
        present.foreign.find? id = some record ∧ property record := by
  refine .addForeign (fun _ _ here record found => ⟨found, here record found⟩)
    fun before working here missing written disk persisted => ?_
  have nothing : ∀ old, ¬before.foreign.find? (Record.ofId id).id = some old :=
    fun old found => absurd (missing.symm.trans found) (by simp)
  exact (Working.put firm working (.ofId id) (fun old found => absurd found (nothing old))
    (fits_ofId involved) (fun _ _ old found => absurd found (nothing old)) persisted).telling
      fun _ _ _ => ⟨Catalog.find?_put_same before.foreign (.ofId id), fresh⟩

/-- A record may be changed to one that is allowed, and those of other objects stay. -/
theorem governs_update (property : Record → Prop) (kept : String → Prop)
    (known : String → Option Record) {change : Record → Record} :
    (site.regime enrolled).Governs
      (fun present => (∃ old, present.foreign.find? id = some old ∧
          property { change old with id := old.id } ∧
          site.Allowed enrolled present.disk present.foreign old { change old with id := old.id }) ∧
        ∀ twin, kept twin → twin ≠ id → present.foreign.find? twin = known twin)
      (Step.updateForeign id change) fun record present =>
        (present.foreign.find? id = some record ∧ property record) ∧
          ∀ twin, kept twin → twin ≠ id → present.foreign.find? twin = known twin := by
  refine .updateForeign fun before working here => ?_
  obtain ⟨⟨old, found, fine, allowed⟩, others⟩ := here
  rw [Catalog.id_of_find? found] at fine allowed
  let changed : Record := { change old with id := id }
  have isThere := Catalog.find?_put_same before.foreign changed
  have apart : ∀ twin, kept twin → twin ≠ id →
      (before.foreign.put changed).find? twin = known twin := by
    intro twin isKept different
    have elsewhere : changed.id ≠ twin := Ne.symm different
    exact (Catalog.find?_put_other before.foreign elsewhere).trans (others twin isKept different)
  have onlyOld : ∀ other, before.foreign.find? changed.id = some other → other = old :=
    fun other foundOther => Option.some.inj (foundOther.symm.trans found)
  refine ⟨old, found, fun same => ?_, fun written disk persisted => ?_⟩
  · have unchanged : before.foreign.put changed = before.foreign := by
      have isOld : changed = old := allowed.same same
      unfold Catalog.put
      rw [isOld, Ordered.put_of_mem working.tells.sorted (Catalog.mem_of_find? found)]
    refine ⟨?_, ?_, ⟨isThere, fine⟩, apart⟩
    · exact unchanged.symm ▸ working
    · exact unchanged.symm ▸ .refl before
  · exact (Working.put firm working changed
      (fun other foundOther => onlyOld other foundOther ▸ allowed.within) allowed.fits
      (fun isEnrolled registers other foundOther => by
        rw [allowed.source isEnrolled registers, onlyOld other foundOther]) persisted).telling
          fun _ _ _ => ⟨⟨isThere, fine⟩, apart⟩

/-- A record may be changed when the stage knows enough about it. -/
theorem governs_change {change : Record → Record} :
    (site.regime enrolled).Governs (fun present => ∃ old, present.foreign.find? id = some old ∧
        site.Allowed enrolled present.disk present.foreign old { change old with id := old.id })
      (Step.updateForeign id change) fun _ _ => True := by
  refine (governs_update firm (fun _ => True) (fun _ => False) fun _ => none).weaken
    (fun present _ here => ?_) fun _ _ _ _ => trivial
  obtain ⟨old, found, allowed⟩ := here
  exact ⟨⟨old, found, trivial, allowed⟩, fun _ never => never.elim⟩

/-! ## Exported objects -/

/-- A record of an exported object may be put and persisted. -/
theorem Working.putExternal (working : site.Working enrolled present) (record : Record)
    (exports : site.Exports (present.external.put record))
    (ran : (present.external.put record).persist present.disk = (outcome, next)) :
    (site.regime enrolled).Ends present (fun _ _ => True) outcome
      { present with external := present.external.put record, disk := next } := by
  have known : Catalogs.foreignFile ∈ catalogNames := List.mem_cons_self
  have knownExternal : Catalogs.externalFile ∈ catalogNames := List.mem_cons_of_mem _ List.mem_cons_self
  obtain ⟨laid, same⟩ := persist_pieces firm working.laid knownExternal exports.path ran
  obtain ⟨written, failed⟩ := persist_filed firm working.laid knownExternal exports.path ran
  have neat : site.exact → site.Neat next := fun exact_ =>
    persist_neat firm (firm.exact exact_) working.laid (working.neat exact_) knownExternal exports.path
      ran
  have filed := working.filed.persist_other firm working.laid known knownExternal (by decide)
    working.tells.path exports.path ran
  cases outcome with
  | ok value =>
    exact ⟨⟨laid, working.tells.still same, filed, exports, written rfl, neat, working.slot,
      working.enrolled, fun flawless =>
        (working.persists firm flawless knownExternal exports.path ran).2⟩, ⟨.refl _,
      fun piece id live there => (exists_congr fun content => same piece id content live).2 there,
      fun id content live => (same _ id content live).2,
      fun id content live _ => (same _ id content live).2,
      fun id live answered content holds => answered content ((same _ id content live).1 holds)⟩,
      trivial⟩
  | error failure =>
    refine ⟨fun flawless => ?_, laid, neat, present.foreign, present.external,
      working.tells.still same, filed, working.exports,
      failed failure rfl _ working.exports.path working.filedExternal⟩
    exact absurd (working.persists firm flawless knownExternal exports.path ran).1 (by simp)

variable (said : Catalog → Prop)

theorem governs_addExternal (registers : site.Registers id)
    (versions : site.settings.withVersions = true) :
    (site.regime enrolled).Governs (fun present => said present.foreign) (Step.addExternal id)
      fun record present => said present.foreign ∧ present.external.find? id = some record := by
  refine .addExternal (fun _ _ here record found => ⟨here, found⟩)
    fun before working here missing written disk persisted => ?_
  have exported : Exported site.grounds (.ofId id) := ⟨by simp [Record.ofId], rfl, rfl, rfl⟩
  exact (Working.putExternal firm working (.ofId id)
    (working.exports.put registers exported rfl versions fun _ => Or.inl rfl) persisted).telling
      fun _ _ _ => ⟨here, Catalog.find?_put_same before.external (.ofId id)⟩

/-- An object may be exported with a source of the project. -/
theorem governs_export (registers : site.Registers id)
    (versions : site.settings.withVersions = true) {file : Path} {version : String}
    (isLocal : site.grounds.Local file)
    (isVersion : site.exact → version = site.settings.project.version) :
    (site.regime enrolled).Governs (fun present => said present.foreign ∧
        ∃ old, present.external.find? id = some old)
      (Step.updateExternal id (asExported file version)) fun _ present => said present.foreign := by
  refine .updateExternal fun before working known => ?_
  obtain ⟨here, old, found⟩ := known
  let changed : Record := { asExported file version old with id := id }
  have member := Catalog.mem_of_find? found
  have exportedOld := working.exports.exported old member
  have exported : Exported site.grounds changed := by
    refine ⟨fun path isPath => ?_, exportedOld.xmir, exportedOld.optimized, exportedOld.discoveredAt⟩
    rw [← Option.some.inj (Option.mem_def.1 isPath)]
    exact isLocal
  have isPlain : site.exact → Plain site changed := by
    intro exact_
    have made := (working.exports.plain exact_ old member).export_ file version (isVersion exact_)
    rw [Catalog.id_of_find? found] at made
    exact Or.inr ⟨file, made⟩
  refine ⟨old, found, fun same => ?_, fun written disk persisted => ?_⟩
  · have unchanged : before.external.put changed = before.external := by
      have isOld : changed = old := exported.eq_of_same exportedOld same
      unfold Catalog.put
      rw [isOld, Ordered.put_of_mem working.exports.sorted member]
    refine ⟨?_, ?_, here⟩
    · exact unchanged.symm ▸ working
    · exact unchanged.symm ▸ .refl before
  · exact (Working.putExternal firm working changed
      (working.exports.put registers exported (working.exports.uncounted old member) versions
        isPlain) persisted).telling fun _ _ _ => here

end Records

/-! ## Files -/

section Files

variable (firm : site.Firm) (said : Catalog → Prop)

include firm

/-- A piece may be written when it is ready, and no other piece changes. -/
theorem governs_write (live : site.Live piece id) (spared : Piece → String → Prop)
    (apart : ∀ other twin, spared other twin →
      site.Live other twin ∧ ¬(other = piece ∧ twin = id)) :
    (site.regime enrolled).Governs
      (fun present => (site.Ready present.disk present.foreign piece id text ∧
          said present.foreign) ∧
        ∀ other twin, spared other twin → ¬site.Stands present.disk other twin)
      (Step.write (site.place piece id) text) fun _ present =>
        (site.Holds present.disk piece id (.text text) ∧ said present.foreign) ∧
          ∀ other twin, spared other twin → ¬site.Stands present.disk other twin := by
  refine .write fun before working told outcome disk ran => ?_
  obtain ⟨⟨ready, here⟩, vacant⟩ := told
  have wrote := Site.wrote firm working.laid.sound working.laid.current live ran
  have writes : site.Writes (site.place piece id) := .piece live
  have able : site.flawless → outcome = .ok () ∧ disk.Calm := by
    intro flawless
    have able := firm.able flawless
    have receives := (working.neat able.exact).receives (firm.exact able.exact)
      working.laid.current writes (able.receives _ writes)
    obtain ⟨last, written, calm⟩ := Document.writeBelow_receives receives working.laid.sound
      (working.calm flawless) text
    obtain ⟨rfl, rfl⟩ := Prod.mk.inj (ran.symm.trans written)
    exact ⟨rfl, calm⟩
  have still : site.Working enrolled { before with disk := disk } := by
    refine ⟨wrote.laid live working.laid ready.permits fun isParsed other isMade liveOther stands =>
      ready.unparsed isParsed (working.tells.made other id isMade liveOther stands),
      working.tells.write wrote ready, ?_, working.exports, ?_, fun exact_ => ?_, working.slot,
      working.enrolled, fun flawless => (able flawless).2⟩
    · exact working.filed.write working.laid wrote List.mem_cons_self working.tells.path
    · exact working.filedExternal.write working.laid wrote
        (List.mem_cons_of_mem _ List.mem_cons_self) working.exports.path
    · exact (working.neat exact_).write (firm.exact exact_) working.laid.sound working.laid.current
        writes ran
  cases outcome with
  | error failure => exact ⟨fun flawless => absurd (able flawless).1 (by simp), still.resumable⟩
  | ok value =>
    refine ⟨still, ⟨.refl _, fun other twin liveOther => wrote.stands liveOther,
      fun twin content liveTwin holds => ?_, fun twin content liveTwin marked holds => ?_,
      fun twin liveTwin => ready.answers wrote liveTwin⟩, ⟨(wrote.written rfl).2.2, here⟩,
      fun other twin isSpared stands => ?_⟩
    · refine (wrote.others _ _ _ liveTwin ?_).2 holds
      rintro ⟨isOptimized, rfl⟩
      exact ready.vacant isOptimized.symm ⟨content, holds⟩
    · by_cases same : Piece.parsed = piece ∧ twin = id
      · rw [same.2] at marked
        exact absurd marked (ready.unparsed same.1.symm)
      · exact (wrote.others _ _ _ liveTwin same).2 holds
    · obtain ⟨liveOther, different⟩ := apart other twin isSpared
      obtain ⟨content, holds⟩ := stands
      exact vacant other twin isSpared ⟨content, (wrote.others _ _ _ liveOther different).1 holds⟩

/-- A document may be saved as a piece that is ready for its text. -/
theorem governs_save (live : site.Live piece id) (document : Document)
    (spared : Piece → String → Prop)
    (apart : ∀ other twin, spared other twin →
      site.Live other twin ∧ ¬(other = piece ∧ twin = id))
    (able : site.flawless → ∃ text, document.render = .ok text) :
    (site.regime enrolled).Governs
      (fun present => ((∀ text, document.render = .ok text →
          site.Ready present.disk present.foreign piece id text) ∧ said present.foreign) ∧
        ∀ other twin, spared other twin → ¬site.Stands present.disk other twin)
      (Step.save document (site.place piece id)) fun _ present =>
        (site.Stands present.disk piece id ∧ said present.foreign) ∧
          ∀ other twin, spared other twin → ¬site.Stands present.disk other twin := by
  refine .save (fun text render => ?_) fun failure render present working _ =>
    ⟨fun flawless => ?_, Working.resumable working⟩
  · exact (governs_write firm said live spared apart).weaken
      (fun _ _ here => ⟨⟨here.1.1 text render, here.1.2⟩, here.2⟩)
      fun _ _ _ told => ⟨⟨⟨_, told.1.1⟩, told.1.2⟩, told.2⟩
  · obtain ⟨text, isText⟩ := able flawless
    exact absurd (render.symm.trans isText) (by simp)

end Files

end Site

end EoAssembly.Build
