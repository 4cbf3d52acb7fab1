import EoAssembly.Proofs.Build.Covering
import EoAssembly.Proofs.Build.Repeating

/-!
Contract: builds on a site end with the same objects and the same files.

A build that looked through every object that may come up has completed the site, whatever
was there when it began.  The record of an object then follows from the site, but for the
document in which the object was discovered, and so does what its files hold, but for the log.

Owns `Record.outcome`, `Site.Completed`, and that completed workspaces agree.

Does not own: that a build completes a site.
-/

namespace EoAssembly

/-- What a record tells of its object, wherever that was discovered. -/
def Record.outcome (record : Record) : Record := { record with discoveredAt := none }

namespace Build.Site

/-- What the record of an object tells once the object was looked through. -/
def outcomeOf (site : Site) (refers : String → List String) (id : String) : Record where
  id := id
  source := some (((lastNamed site.files id).map site.sourcePath).getD (site.place .pulled id))
  xmir := some (site.place .parsed id)
  optimized := some (site.place .optimized id)
  discovered := some (refers id).length
  pulled := (lastNamed site.files id).isNone
  version := if (lastNamed site.files id).isNone then (ObjectName.split id).2 else none
  hash := if (lastNamed site.files id).isNone then pinnedHash site.tags id else none
  status := some Status.discovered

/-- The record of an exported object. -/
def exportOf (site : Site) (id : String) : Option Record :=
  if site.settings.withVersions then
    (lastNamed site.files id).map fun file =>
      asExported (site.sourcePath file) site.settings.project.version (.ofId id)
  else none

/-- A workspace where every object that may come up was looked through, and the objects of
files are exported. -/
structure Completed (site : Site) (refers : String → List String) (present : Workspace) : Prop where
  working : site.Working True present
  discovered : ∀ id, site.involved id →
    Marked (fun record => record.discovered.isSome) present.foreign id
  exported : ∀ id, present.external.find? id = site.exportOf id

/-- The store answers one text for a name. -/
def Single (site : Site) : Prop :=
  ∀ name text other, site.answers name text → site.answers name other → text = other

variable {site : Site} {refers : String → List String} {settings : Settings} {remote : Remote}
  {before present other after : Workspace} {disk next : Disk} {piece : Piece} {id : String}
  {location : Location}

/-! ## Completing -/

section Completes

variable (suits : site.Suits settings remote) (exact_ : site.exact)

include suits exact_

/-- Registering exports the object of every file. -/
theorem Working.exports_registered {count : Nat} (working : site.Working False before)
    (selects : site.Selects settings before.disk)
    (ran : (register settings).Yields before count after) (id : String) :
    after.external.find? id = site.exportOf id := by
  have rule := (register_enlists ran).external
  rw [selects.files, suits.versions, suits.sources, suits.project exact_] at rule
  unfold exportOf
  split at rule
  · next versions =>
    rw [if_pos versions, rule id]
    cases last : lastNamed site.files id with
    | none =>
      have foreign : ¬site.Registers id := fun registers => by
        obtain ⟨file, isLast⟩ := registers_iff.1 registers
        exact absurd (last.symm.trans isLast) (by simp)
      cases found : before.external.find? id with
      | none => rfl
      | some record =>
        have registers := working.exports.registers record (Catalog.mem_of_find? found)
        rw [Catalog.id_of_find? found] at registers
        exact absurd registers foreign
    | some file =>
      refine congrArg some ?_
      unfold recordOf
      cases found : before.external.find? id with
      | none => rfl
      | some record =>
        have plain := working.exports.plain exact_ record (Catalog.mem_of_find? found)
        rw [← Catalog.id_of_find? found]
        exact plain.export_ (site.sourcePath file) _ rfl
  · next none =>
    rw [if_neg none, rule]
    have empty := working.exports.versions (by simpa using none)
    unfold Catalog.find?
    rw [empty]
    rfl

/-- An assembly that succeeds completes a site whose objects are those that references lead to. -/
theorem Resumable.completes (firm : site.Firm) (follows : site.Follows refers)
    (flawed : ¬site.flawless) (needed : ∀ id, site.involved id → Needed site.roots refers id)
    (resumable : site.Resumable before.disk) (selects : site.Selects settings before.disk)
    (slot : ∀ text ∈ before.slot.text, site.tags = .ok text) {answer : Assembly}
    (ran : (assemble settings remote).Yields before answer after) : site.Completed refers after := by
  obtain ⟨foreign, external, registered, ranForeign, ranExternal, ranRegister, ranSettle, _⟩ :=
    yields_assemble_opened.1 ran
  obtain ⟨opened, exports, tells, filed, isExports, filedExternal⟩ := resumable.catalogs
  rw [suits.target] at ranForeign ranExternal
  obtain ⟨rfl, rfl⟩ := Resumable.opened firm tells filed isExports filedExternal ranForeign
    ranExternal
  have working : site.Working False { before with foreign := foreign, external := external } :=
    ⟨resumable.laid, tells, filed, isExports, filedExternal, resumable.neat, fun _ => slot,
      False.elim, fun flawless => absurd flawless flawed⟩
  have selected : site.Selects settings
      ({ before with foreign := foreign, external := external } : Workspace).disk := selects
  have enrolled := ((governs_register firm suits _ working selected).1 _ _ ranRegister).1.enroll suits
    selected ranRegister
  refine ⟨((governs_settle firm suits flawed _ registered enrolled trivial).1 _ _ ranSettle).1,
    fun id involved => ?_, fun id => ?_⟩
  · obtain ⟨count, reaches⟩ := needed id involved
    exact (enrolled.settled_covers firm suits follows exact_ ranSettle (count + 1)).discovered id
      ⟨count, Nat.le_refl count, reaches⟩
  · rw [(supply_external settings remote registered.external).settle _ registered _ after rfl
      ranSettle]
    exact working.exports_registered suits exact_ selected ranRegister id

end Completes

/-! ## Files of a completed site -/

/-- All files of an object that may come up stand, but for its log. -/
theorem Completed.stands (completed : site.Completed refers present) (live : site.Live piece id)
    (noLog : piece ≠ .log) : site.Stands present.disk piece id := by
  obtain ⟨record, found, isSome⟩ := completed.discovered id live.involved
  have fits := completed.working.tells.found found
  have sameId := Catalog.id_of_find? found
  obtain ⟨count, isCount⟩ := Option.isSome_iff_exists.1 isSome
  obtain ⟨isOptimized, made, _, holds, _⟩ := fits.discovered count isCount
  rw [sameId] at holds
  obtain ⟨⟨text, _, holdsText, _⟩, steps⟩ :=
    completed.working.laid.permits .optimized id _ live.optimized holds
  cases piece with
  | parsed => exact holdsText.stands
  | step index => exact steps index (live.position index rfl)
  | optimized => exact holds.stands
  | pulled =>
    have parsed := fits.parsed_of_optimized isOptimized
    have pulled := fits.stored (sameId ▸ live.stored rfl) (fits.sourced_of_parsed parsed)
    rw [← sameId]
    exact fits.standing pulled (Or.inr parsed)
  | log => exact absurd rfl noLog

theorem sourceText_unique (single : site.Single) {source twin : String}
    (expected : site.SourceText id source) (expectedTwin : site.SourceText id twin) :
    source = twin := by
  unfold SourceText at expected expectedTwin
  cases last : lastNamed site.files id with
  | none =>
    rw [last] at expected expectedTwin
    exact single id source twin expected expectedTwin
  | some file =>
    rw [last] at expected expectedTwin
    exact FileContent.text.inj (expected.symm.trans expectedTwin)

/-- The files of an object hold the same wherever they stand, but for its log. -/
theorem Laid.unique (laid : site.Laid disk) (laidNext : site.Laid next) (single : site.Single)
    (keeps : site.keeps) (live : site.Live piece id) (noLog : piece ≠ .log)
    {content twin : FileContent} (here : site.Holds disk piece id content)
    (there : site.Holds next piece id twin) : content = twin := by
  have documents : ∀ {text result}, site.Holds disk .parsed id (.text text) →
      site.Holds next .parsed id (.text result) → text = result := by
    intro text result holds holdsNext
    obtain ⟨source, expected, isText⟩ := laid.document live.parsed holds
    obtain ⟨sourceNext, expectedNext, isResult⟩ := laidNext.document live.parsed holdsNext
    rw [sourceText_unique single expectedNext expected] at isResult
    exact Except.ok.inj (isText.symm.trans isResult)
  have made : ∀ {passes}, site.MadeOf disk passes id content → site.MadeOf next passes id twin →
      content = twin := by
    rintro passes ⟨text, result, holds, isMade, rfl⟩ ⟨textNext, resultNext, holdsNext, isMadeNext, rfl⟩
    rw [← documents holds holdsNext] at isMadeNext
    rw [Except.ok.inj (isMade.symm.trans isMadeNext)]
  have permits := laid.permits piece id content live here
  have permitsNext := laidNext.permits piece id twin live there
  cases piece with
  | parsed =>
    obtain ⟨_, text, _, _, rfl⟩ := permits
    obtain ⟨_, result, _, _, rfl⟩ := permitsNext
    rw [documents here there]
  | step index => exact made permits permitsNext
  | optimized => exact made permits.1 permitsNext.1
  | pulled =>
    obtain ⟨text, rfl, answers⟩ := permits keeps
    obtain ⟨result, rfl, answersNext⟩ := permitsNext keeps
    rw [single id text result answers answersNext]
  | log => exact absurd rfl noLog

section Shows

variable (completed : site.Completed refers present)

include completed

/-- The documents of all objects could be made and read. -/
theorem Completed.documents (single : site.Single) {source : String} (involved : site.involved id)
    (expected : site.SourceText id source) :
    ∃ text, documentText site.settings site.parse id source = .ok text ∧
      (∀ index, index < Pass.all.length →
        ∃ made, madeText site.settings (Pass.all.take (index + 1)) id text = .ok made) ∧
      ∃ made names, madeText site.settings Pass.all id text = .ok made ∧
        namesOfText (site.place .optimized id) made = .ok names := by
  have laid := completed.working.laid
  obtain ⟨record, found, isSome⟩ := completed.discovered id involved
  have fits := completed.working.tells.found found
  obtain ⟨count, isCount⟩ := Option.isSome_iff_exists.1 isSome
  obtain ⟨isOptimized, made, names, holds, reads, _⟩ := fits.discovered count isCount
  have live := fits.live (fits.sourced_of_parsed (fits.parsed_of_optimized isOptimized))
  rw [Catalog.id_of_find? found] at holds reads live
  obtain ⟨⟨text, result, holdsText, isMade, same⟩, steps⟩ :=
    laid.permits .optimized id _ live.optimized holds
  rw [← FileContent.text.inj same] at isMade
  obtain ⟨saved, expectedSaved, isText⟩ := laid.document live holdsText
  rw [sourceText_unique single expectedSaved expected] at isText
  refine ⟨text, isText, fun index below => ?_, made, names, isMade, reads⟩
  obtain ⟨content, stands⟩ := steps index below
  obtain ⟨twin, between, holdsTwin, isBetween, _⟩ :=
    laid.permits (.step index) id content (live.step below) stands
  rw [FileContent.text.inj (holdsTwin.unique holdsText)] at isBetween
  exact ⟨between, isBetween⟩

/-- The files of the project hold texts. -/
theorem Completed.texts (firm : site.Firm) {file : Path}
    (last : lastNamed site.files id = some file) : ∃ text, site.content file = .text text := by
  obtain ⟨member, rfl⟩ := lastNamed_mem last
  have live : site.Live .parsed (idOf file) :=
    ⟨firm.roots file member, fun foreign => absurd (List.mem_map_of_mem member) foreign,
      fun wrong => absurd wrong (by simp [Piece.isStored]), fun _ wrong => absurd wrong (by simp)⟩
  obtain ⟨content, holds⟩ := completed.stands live (by simp)
  obtain ⟨source, _, expected, _⟩ := completed.working.laid.permits .parsed _ content live holds
  exact ⟨source, (sourceText_registered last source).1 expected⟩

/-- An object that no file registers was pulled, and its name leads to a place. -/
theorem Completed.stored (involved : site.involved id) (foreign : ¬site.Registers id) :
    ObjectName.checkPlace id = .ok () ∧ Build.isLocal present.foreign id = false := by
  obtain ⟨record, found, isSome⟩ := completed.discovered id involved
  have fits := completed.working.tells.found found
  have sourced := fits.sourced_of_parsed
    (fits.parsed_of_optimized (fits.optimized_of_discovered isSome))
  rw [← Catalog.id_of_find? found] at foreign
  refine ⟨Catalog.id_of_find? found ▸ fits.placed sourced foreign, ?_⟩
  unfold Build.isLocal
  rw [found]
  simp [fits.stored foreign sourced]

/-- What a document refers to is among the names that are pulled. -/
theorem Completed.referred (follows : site.Follows refers) (involved : site.involved id) {name : String}
    (member : name ∈ refers id) : name ∈ referredNames present.disk present.foreign := by
  obtain ⟨record, found, isSome⟩ := completed.discovered id involved
  exact (completed.working.referring follows found isSome).2 name member

end Shows

/-- A location where nothing stood at first, and to which builds come only for files of objects
that are no logs. -/
structure Made (site : Site) (location : Location) : Prop where
  vacant : site.start.entryAt? location = none
  ours : ∀ path, site.Writes path →
    location = path.goal site.current ∨ location ∈ path.above site.current →
      ∃ piece id, site.Live piece id ∧ piece ≠ .log ∧ path = site.place piece id

section Agree

variable (firm : site.Firm) (exact_ : site.exact) (single : site.Single)

include firm exact_ single

/-- What stands among the files of objects in one completed workspace stands in another one. -/
theorem Completed.entry (first : site.Completed refers present)
    (second : site.Completed refers other) (made : site.Made location) {entry : Entry}
    (here : present.disk.entryAt? location = some entry) :
    other.disk.entryAt? location = some entry := by
  have isExact := firm.exact exact_
  have neat := first.working.neat exact_
  cases entry with
  | file content =>
    rcases neat.files location content here with before | ⟨path, writes, rfl, _⟩
    · exact absurd (made.vacant.symm.trans before) (by simp)
    · obtain ⟨piece, id, live, noLog, rfl⟩ := made.ours path writes (Or.inl rfl)
      obtain ⟨twin, there⟩ := second.stands live noLog
      rw [first.working.laid.unique second.working.laid single isExact.keeps live noLog here there]
      exact there
  | directory =>
    rcases neat.directories location (Disk.directoryAt_iff.2 here) with
      before | ⟨⟨path, writes, above⟩, _⟩
    · exact absurd (made.vacant.symm.trans (Disk.directoryAt_iff.1 before)) (by simp)
    · obtain ⟨piece, id, live, noLog, rfl⟩ := made.ours path writes (Or.inr above)
      obtain ⟨twin, there⟩ := second.stands live noLog
      have carries := (second.working.neat exact_).carries firm isExact writes there
      refine Disk.directoryAt_iff.1 (carries.above location ?_)
      rw [second.working.laid.current]
      exact above

/-- Completed workspaces have the same files of objects, with the same directories above them. -/
theorem Completed.same_entry (first : site.Completed refers present)
    (second : site.Completed refers other) (made : site.Made location) :
    other.disk.entryAt? location = present.disk.entryAt? location :=
  Option.ext fun _ => ⟨second.entry firm exact_ single first made,
    first.entry firm exact_ single second made⟩

end Agree

/-! ## Records of a completed site -/

/-- The objects in the catalog are those that may come up. -/
theorem Completed.mem_ids (completed : site.Completed refers present) :
    id ∈ present.foreign.records.map Record.id ↔ site.involved id := by
  constructor
  · intro member
    obtain ⟨record, among, rfl⟩ := List.mem_map.1 member
    exact (completed.working.tells.records record among).involved
  · intro involved
    obtain ⟨record, found, _⟩ := completed.discovered id involved
    rw [← Catalog.id_of_find? found]
    exact List.mem_map_of_mem (Catalog.mem_of_find? found)

section Records

variable (exact_ : site.exact) (follows : site.Follows refers)

include exact_ follows

/-- What a record tells follows from the site. -/
theorem Completed.record (completed : site.Completed refers present) {record : Record}
    (found : present.foreign.find? id = some record) :
    record.outcome = site.outcomeOf refers id := by
  have working := completed.working
  have fits := working.tells.found found
  have sameId := Catalog.id_of_find? found
  have discovered : record.discovered.isSome = true := by
    obtain ⟨twin, foundTwin, isSome⟩ := completed.discovered record.id fits.involved
    rw [sameId, found] at foundTwin
    exact Option.some.inj foundTwin ▸ isSome
  have isOptimized := fits.optimized_of_discovered discovered
  have isParsed := fits.parsed_of_optimized isOptimized
  have counted := (working.referring follows found discovered).1
  obtain ⟨optimized, atOptimized⟩ := Option.isSome_iff_exists.1 isOptimized
  obtain ⟨xmir, atXmir⟩ := Option.isSome_iff_exists.1 isParsed
  rw [(fits.optimized optimized atOptimized).1, sameId] at atOptimized
  rw [(fits.parsed xmir atXmir).1, sameId] at atXmir
  obtain ⟨version, hash⟩ := fits.pinned exact_
  have status := fits.status exact_ discovered
  have source : record.source =
      some (((lastNamed site.files id).map site.sourcePath).getD (site.place .pulled id)) ∧
        record.pulled = (lastNamed site.files id).isNone := by
    cases last : lastNamed site.files id with
    | none =>
      have foreign : ¬site.Registers record.id := fun registers => by
        obtain ⟨file, isLast⟩ := registers_iff.1 registers
        rw [sameId, last] at isLast
        exact absurd isLast (by simp)
      have pulled := fits.stored foreign (fits.sourced_of_parsed isParsed)
      have source := (fits.ofStore pulled).2
      rw [sameId] at source
      refine ⟨?_, pulled⟩
      rw [Option.map_none, Option.getD_none]
      exact source
    | some file =>
      obtain ⟨twin, foundTwin, source⟩ := working.enrolled trivial id file last
      rw [found] at foundTwin
      rw [← Option.some.inj foundTwin] at source
      exact ⟨source, fits.unpulled (sameId ▸ registers_iff.2 ⟨file, last⟩)⟩
  rw [source.2, sameId] at version hash
  simp only [Record.outcome, outcomeOf, Record.mk.injEq]
  exact ⟨sameId, source.1, atXmir, atOptimized, trivial, counted, source.2, version, hash, status⟩

/-- Completed workspaces have the same objects, with records that tell the same. -/
theorem Completed.same_records (first : site.Completed refers present)
    (second : site.Completed refers other) :
    other.foreign.records.map Record.outcome = present.foreign.records.map Record.outcome := by
  have outcomes : ∀ {workspace}, site.Completed refers workspace →
      workspace.foreign.records.map Record.outcome =
        (workspace.foreign.records.map Record.id).map (site.outcomeOf refers) := by
    intro workspace completed
    rw [List.map_map]
    exact List.map_congr_left fun record member => completed.record exact_ follows
      (Catalog.find?_of_mem completed.working.tells.sorted member)
  have ids : other.foreign.records.map Record.id = present.foreign.records.map Record.id := by
    have sorted : ∀ {catalog : Catalog}, catalog.Sorted →
        (catalog.records.map Record.id).Pairwise (· < ·) := List.pairwise_map.2
    refine List.Perm.eq_of_pairwise (fun _ _ _ _ less more => absurd more (String.lt_asymm less))
      (sorted second.working.tells.sorted) (sorted first.working.tells.sorted) ?_
    exact (List.perm_ext_iff_of_nodup second.working.tells.sorted.nodup_ids
      first.working.tells.sorted.nodup_ids).2 fun id => second.mem_ids.trans first.mem_ids.symm
  rw [outcomes first, outcomes second, ids]

end Records

/-- Completed workspaces have the same exported objects. -/
theorem Completed.same_exports (first : site.Completed refers present)
    (second : site.Completed refers other) : other.external = present.external :=
  Catalog.eq_of_find (second.working.exports.path.trans first.working.exports.path.symm)
    first.working.exports.sorted second.working.exports.sorted
    fun id => (second.exported id).trans (first.exported id).symm

end Build.Site

end EoAssembly
