import EoAssembly.Proofs.Build.Enlisting
import EoAssembly.Proofs.Build.Laid

/-!
Contract: what the catalogs of a site tell about its disk.

A record tells where its source and the pieces of its object are.  A source comes from
the project or from the store, a document was made of it, and a discovered object has an
optimized document whose names are in the catalog.  Nothing was made of an object whose
record doesn't tell of the piece before.  This stays when another piece is written and
when the catalog grows.

Owns `Site.Fits`, `Site.Tells`, `Site.Ready` for a piece that may be written, the catalog
of exported objects, and what opening a catalog file comes to.
-/

namespace EoAssembly.Build

open Disk (Touches)
open ObjectName (checkPlace)
open Path (IsName)

namespace Site

variable {site : Site} {disk next : Disk} {catalog grown : Catalog} {record : Record}
  {piece other : Piece} {id twin text : String} {content : FileContent} {path : Path}
  {outcome : Except Failure Unit}

/-! ## Records -/

/-- A record of an object that may come up, as the disk and the catalog bear it out. -/
structure Fits (site : Site) (disk : Disk) (catalog : Catalog) (record : Record) : Prop where
  involved : site.involved record.id
  placed : record.source.isSome = true → ¬site.Registers record.id → checkPlace record.id = .ok ()
  ofProject : record.pulled = false → ∀ path ∈ record.source,
    ∃ file ∈ site.files, idOf file = record.id ∧ path = site.sourcePath file
  ofStore : record.pulled = true →
    ¬site.Registers record.id ∧ record.source = some (site.place .pulled record.id)
  answered : record.pulled = true → site.Answered disk record.id
  standing : record.pulled = true → site.exact ∨ record.xmir.isSome = true →
    site.Stands disk .pulled record.id
  parsed : ∀ path ∈ record.xmir, path = site.place .parsed record.id ∧
    record.source.isSome = true ∧ site.Stands disk .parsed record.id
  optimized : ∀ path ∈ record.optimized, path = site.place .optimized record.id ∧
    record.xmir.isSome = true ∧ (site.exact → site.Stands disk .optimized record.id)
  /-- The names in a discovered document are in the catalog. -/
  discovered : ∀ count ∈ record.discovered, record.optimized.isSome = true ∧ ∃ text names,
    site.Holds disk .optimized record.id (.text text) ∧
      namesOfText (site.place .optimized record.id) text = .ok names ∧ count = names.length ∧
      ∀ name ∈ names, ∃ other, catalog.find? name = some other
  seen : ∀ path ∈ record.discoveredAt, ∃ id, path = site.place .optimized id
  status : site.exact → record.discovered.isSome = true → record.status = some Status.discovered
  pinned : site.exact →
    record.version = (if record.pulled then (ObjectName.split record.id).2 else none) ∧
      record.hash = if record.pulled then pinnedHash site.tags record.id else none

namespace Fits

variable (fits : site.Fits disk catalog record)

include fits

/-- The pieces of an object with a source may come up. -/
theorem live (sourced : record.source.isSome = true) : site.Live .parsed record.id where
  involved := fits.involved
  placed := fits.placed sourced
  stored stored := absurd stored (by simp [Piece.isStored])
  position _ wrong := absurd wrong (by simp)

theorem live_stored (pulled : record.pulled = true) (piece : Piece)
    (stored : piece.isStored = true) : site.Live piece record.id := by
  obtain ⟨foreign, source⟩ := fits.ofStore pulled
  exact Site.live_stored fits.involved foreign (fits.placed (by rw [source]; rfl) foreign) piece
    stored

theorem sourced_of_parsed (parsed : record.xmir.isSome = true) : record.source.isSome = true := by
  obtain ⟨path, isPath⟩ := Option.isSome_iff_exists.1 parsed
  exact (fits.parsed path isPath).2.1

theorem parsed_of_optimized (optimized : record.optimized.isSome = true) :
    record.xmir.isSome = true := by
  obtain ⟨path, isPath⟩ := Option.isSome_iff_exists.1 optimized
  exact (fits.optimized path isPath).2.1

theorem optimized_of_discovered (discovered : record.discovered.isSome = true) :
    record.optimized.isSome = true := by
  obtain ⟨count, isCount⟩ := Option.isSome_iff_exists.1 discovered
  exact (fits.discovered count isCount).1

/-- A registered object is not pulled. -/
theorem unpulled (registers : site.Registers record.id) : record.pulled = false := by
  cases pulled : record.pulled with
  | false => rfl
  | true => exact absurd registers (fits.ofStore pulled).1

/-- An object that is neither registered nor pulled has no source. -/
theorem unsourced (foreign : ¬site.Registers record.id) (unpulled : record.pulled = false) :
    record.source = none := by
  cases source : record.source with
  | none => rfl
  | some path =>
    obtain ⟨file, member, same, _⟩ := fits.ofProject unpulled path source
    exact absurd (List.mem_map.2 ⟨file, member, same⟩) foreign

/-- An object without a source has gone through no stage. -/
theorem untouched (unsourced : record.source = none) :
    record.xmir = none ∧ record.optimized = none ∧ record.discovered = none := by
  have noXmir : record.xmir = none := by
    cases xmir : record.xmir with
    | none => rfl
    | some path =>
      have sourced := fits.sourced_of_parsed (by rw [xmir]; rfl)
      rw [unsourced] at sourced
      exact absurd sourced (by simp)
  have noResult : record.optimized = none := by
    cases optimized : record.optimized with
    | none => rfl
    | some path =>
      have parsed := fits.parsed_of_optimized (by rw [optimized]; rfl)
      rw [noXmir] at parsed
      exact absurd parsed (by simp)
  refine ⟨noXmir, noResult, ?_⟩
  cases discovered : record.discovered with
  | none => rfl
  | some count =>
    have optimized := fits.optimized_of_discovered (by rw [discovered]; rfl)
    rw [noResult] at optimized
    exact absurd optimized (by simp)

/-- What bears a record out stays when the catalog grows. -/
theorem grow (grows : catalog.Grows grown) : site.Fits disk grown record := by
  refine { fits with discovered := fun count member => ?_ }
  obtain ⟨optimized, text, names, holds, reads, counted, known⟩ := fits.discovered count member
  refine ⟨optimized, text, names, holds, reads, counted, fun name among => ?_⟩
  obtain ⟨other, found⟩ := known name among
  obtain ⟨later, foundLater, _⟩ := grows name other found
  exact ⟨later, foundLater⟩

/-- What bears a record out stays when its pieces do, and the store may answer what is written
for its source. -/
theorem move (stands : ∀ piece, site.Live piece record.id → site.Stands disk piece record.id →
      site.Stands next piece record.id)
    (answered : site.Live .pulled record.id → site.Answered disk record.id →
      site.Answered next record.id)
    (optimized : site.Live .optimized record.id → ∀ content,
      site.Holds disk .optimized record.id content → site.Holds next .optimized record.id content) :
    site.Fits next catalog record where
  involved := fits.involved
  placed := fits.placed
  ofProject := fits.ofProject
  ofStore := fits.ofStore
  answered pulled := answered (fits.live_stored pulled .pulled rfl) (fits.answered pulled)
  standing pulled when :=
    stands _ (fits.live_stored pulled .pulled rfl) (fits.standing pulled when)
  parsed path member := by
    obtain ⟨place, sourced, there⟩ := fits.parsed path member
    exact ⟨place, sourced, stands _ (fits.live sourced) there⟩
  optimized path member := by
    obtain ⟨place, parsed, there⟩ := fits.optimized path member
    have sourced := fits.sourced_of_parsed parsed
    exact ⟨place, parsed, fun exact_ => stands _ (fits.live sourced).optimized (there exact_)⟩
  discovered count member := by
    obtain ⟨isOptimized, text, names, holds, rest⟩ := fits.discovered count member
    have sourced := fits.sourced_of_parsed (fits.parsed_of_optimized isOptimized)
    exact ⟨isOptimized, text, names, optimized (fits.live sourced).optimized _ holds, rest⟩
  seen := fits.seen
  status := fits.status
  pinned := fits.pinned

end Fits

/-- A record that no stage has touched fits. -/
theorem fits_ofId (involved : site.involved id) : site.Fits disk catalog (.ofId id) where
  involved := involved
  placed := by simp [Record.ofId]
  ofProject _ path member := absurd member (by simp [Record.ofId])
  ofStore pulled := absurd pulled (by simp [Record.ofId])
  answered pulled := absurd pulled (by simp [Record.ofId])
  standing pulled := absurd pulled (by simp [Record.ofId])
  parsed path member := absurd member (by simp [Record.ofId])
  optimized path member := absurd member (by simp [Record.ofId])
  discovered count member := absurd member (by simp [Record.ofId])
  seen path member := absurd member (by simp [Record.ofId])
  status _ discovered := absurd discovered (by simp [Record.ofId])
  pinned _ := by simp [Record.ofId]

/-! ## Catalogs -/

/-- A catalog that tells what stands on a disk. -/
structure Tells (site : Site) (disk : Disk) (catalog : Catalog) : Prop where
  path : catalog.path = catalogPath site.settings.target
  sorted : catalog.Sorted
  records : ∀ record ∈ catalog.records, site.Fits disk catalog record
  /-- A document was made of a recorded source. -/
  parsed : ∀ id, site.Live .parsed id → site.Stands disk .parsed id →
    Marked (fun record => record.source.isSome) catalog id
  /-- Passes worked on a recorded document. -/
  made : ∀ piece id, piece.passes? ≠ none → site.Live piece id → site.Stands disk piece id →
    Marked (fun record => record.xmir.isSome) catalog id

theorem Tells.found (tells : site.Tells disk catalog) (found : catalog.find? id = some record) :
    site.Fits disk catalog record :=
  tells.records record (Catalog.mem_of_find? found)

/-- A record that fits may be put in the place of one that it has grown from. -/
theorem Tells.put (tells : site.Tells disk catalog)
    (within : ∀ old, catalog.find? record.id = some old → old.Within record)
    (fits : site.Fits disk (catalog.put record) record) : site.Tells disk (catalog.put record) := by
  have grows := Catalog.grows_put within
  refine ⟨tells.path, Catalog.sorted_put tells.sorted, fun other member => ?_,
    fun id live stands => (tells.parsed id live stands).later Record.Within.source grows,
    fun piece id isMade live stands =>
      (tells.made piece id isMade live stands).later Record.Within.xmir grows⟩
  rcases Ordered.mem_of_mem_put member with same | before
  · rw [same]
    exact fits
  · exact (tells.records other before).grow grows

/-- What a catalog tells stays when no piece changes. -/
theorem Tells.still (tells : site.Tells disk catalog)
    (same : ∀ piece id content, site.Live piece id →
      (site.Holds next piece id content ↔ site.Holds disk piece id content)) :
    site.Tells next catalog := by
  have stands : ∀ piece id, site.Live piece id →
      (site.Stands next piece id ↔ site.Stands disk piece id) :=
    fun piece id live => exists_congr fun content => same piece id content live
  refine ⟨tells.path, tells.sorted, fun record member => ?_,
    fun id live there => tells.parsed id live ((stands _ _ live).1 there),
    fun piece id isMade live there => tells.made piece id isMade live ((stands _ _ live).1 there)⟩
  have fits := tells.records record member
  exact fits.move (fun piece live => (stands piece _ live).2)
    (fun live answered content holds => answered content ((same _ _ _ live).1 holds))
    fun live content => (same _ _ _ live).2

/-- A piece that may be written now, with a text. -/
structure Ready (site : Site) (disk : Disk) (catalog : Catalog) (piece : Piece) (id text : String) :
    Prop where
  permits : site.Permits disk id (.text text) piece
  unparsed : piece = .parsed → ¬Marked (fun record => record.xmir.isSome) catalog id
  answered : piece = .pulled → site.answers id text
  vacant : piece = .optimized → ¬site.Stands disk .optimized id
  sourced : piece = .parsed → Marked (fun record => record.source.isSome) catalog id
  parsed : piece.passes? ≠ none → Marked (fun record => record.xmir.isSome) catalog id

/-- What is pulled stays an answer of the store when a piece is written that is ready. -/
theorem Ready.answers (ready : site.Ready disk catalog piece id text)
    (wrote : site.Wrote piece id text outcome disk next) (live : site.Live .pulled twin)
    (answered : site.Answered disk twin) : site.Answered next twin := by
  intro content holds
  by_cases same : Piece.pulled = piece ∧ twin = id
  · obtain ⟨rfl, rfl⟩ := same
    rcases wrote.holds holds with ⟨_, isText⟩ | before
    · exact ⟨text, isText, ready.answered rfl⟩
    · exact answered content before
  · exact answered content ((wrote.others _ _ _ live same).1 holds)

/-- What a catalog tells stays when a piece is written, or can't be. -/
theorem Tells.write (tells : site.Tells disk catalog)
    (wrote : site.Wrote piece id text outcome disk next)
    (ready : site.Ready disk catalog piece id text) : site.Tells next catalog where
  path := tells.path
  sorted := tells.sorted
  records record member := by
    have fits := tells.records record member
    refine fits.move (fun other live => wrote.stands live)
      (fun live answered => ready.answers wrote live answered) fun live content holds => ?_
    refine (wrote.others _ _ _ live ?_).2 holds
    rintro ⟨isOptimized, sameId⟩
    rw [sameId] at holds
    exact ready.vacant isOptimized.symm ⟨content, holds⟩
  parsed other live stands := by
    obtain ⟨content, holds⟩ := stands
    by_cases same : Piece.parsed = piece ∧ other = id
    · rw [same.2]
      exact ready.sourced same.1.symm
    · exact tells.parsed other live ⟨content, (wrote.others _ _ _ live same).1 holds⟩
  made other twin isMade live stands := by
    obtain ⟨content, holds⟩ := stands
    by_cases same : other = piece ∧ twin = id
    · rw [same.2]
      exact ready.parsed (same.1 ▸ isMade)
    · exact tells.made other twin isMade live ⟨content, (wrote.others _ _ _ live same).1 holds⟩

/-! ## Paths of records -/

theorem isText_sourcePath (firm : site.Firm) {file : Path} (member : file ∈ site.files) :
    (site.sourcePath file).IsText := by
  obtain ⟨some_, plain⟩ := firm.names file member
  exact firm.sources.join (Path.isText_iff.2 ⟨some_, fun segment among => (plain segment among).noSlash⟩)

theorem isText_place_stage (firm : site.Firm) (directory id extension : String) :
    (ObjectName.place id (site.settings.target.child directory) extension).IsText :=
  isText_place (firm.target.child directory) id extension

/-- The paths of a record that fits are written as texts. -/
theorem Fits.textual (firm : site.Firm) (fits : site.Fits disk catalog record) : record.Textual where
  source path member := by
    cases pulled : record.pulled with
    | true =>
      have source := (fits.ofStore pulled).2
      rw [Option.some.inj ((Option.mem_def.1 member).symm.trans source)]
      exact isText_place_stage firm _ _ _
    | false =>
      obtain ⟨file, among, _, same⟩ := fits.ofProject pulled path member
      rw [same]
      exact isText_sourcePath firm among
  xmir path member := by
    rw [(fits.parsed path member).1]
    exact isText_place_stage firm _ _ _
  optimized path member := by
    rw [(fits.optimized path member).1]
    exact isText_place_stage firm _ _ _
  discoveredAt path member := by
    obtain ⟨id, same⟩ := fits.seen path member
    rw [same]
    exact isText_place_stage firm _ _ _

/-- The grounds that a site stands on. -/
def grounds (site : Site) : Grounds :=
  ⟨site.settings.sources, site.settings.target, site.settings.protocols, site.current,
    fun _ => False, False, False⟩

theorem isLocal (firm : site.Firm) {file : Path} (member : file ∈ site.files) :
    site.grounds.Local (site.sourcePath file) :=
  ⟨file.segments, (firm.names file member).1, (firm.names file member).2, rfl⟩

theorem sourcePath_eq (firm : site.Firm) {file twin : Path} (member : file ∈ site.files)
    (memberTwin : twin ∈ site.files)
    (same : (site.sourcePath file).components = (site.sourcePath twin).components) :
    site.sourcePath file = site.sourcePath twin :=
  (isLocal firm member).eq_of_components (isLocal firm memberTwin) same

/-! ## Exported objects -/

/-- A record of an exported object that was just made, or tells of a file and the version of the
project. -/
def Plain (site : Site) (record : Record) : Prop :=
  record = .ofId record.id ∨
    ∃ file, record = asExported file site.settings.project.version (.ofId record.id)

/-- The catalog of exported objects. -/
structure Exports (site : Site) (catalog : Catalog) : Prop where
  path : catalog.path = site.settings.target.child Catalogs.externalFile
  sorted : catalog.Sorted
  registers : ∀ record ∈ catalog.records, site.Registers record.id
  exported : ∀ record ∈ catalog.records, Exported site.grounds record
  uncounted : ∀ record ∈ catalog.records, record.discovered = none
  versions : site.settings.withVersions = false → catalog.records = []
  plain : site.exact → ∀ record ∈ catalog.records, Plain site record

theorem Exports.put (exports : site.Exports catalog) (registers : site.Registers record.id)
    (exported : Exported site.grounds record) (uncounted : record.discovered = none)
    (versions : site.settings.withVersions = true) (plain : site.exact → Plain site record) :
    site.Exports (catalog.put record) where
  path := exports.path
  sorted := Catalog.sorted_put exports.sorted
  registers other member := by
    rcases Ordered.mem_of_mem_put member with same | before
    · rw [same]
      exact registers
    · exact exports.registers other before
  exported other member := by
    rcases Ordered.mem_of_mem_put member with same | before
    · rw [same]
      exact exported
    · exact exports.exported other before
  uncounted other member := by
    rcases Ordered.mem_of_mem_put member with same | before
    · rw [same]
      exact uncounted
    · exact exports.uncounted other before
  versions none := absurd (versions.symm.trans none) (by simp)
  plain exact_ other member := by
    rcases Ordered.mem_of_mem_put member with same | before
    · rw [same]
      exact plain exact_
    · exact exports.plain exact_ other before

/-- An exported object that is exported again tells of the last file. -/
theorem Plain.export_ (plain : Plain site record) (file : Path) (version : String)
    (same : version = site.settings.project.version) :
    { asExported file version record with id := record.id } =
      asExported file site.settings.project.version (.ofId record.id) := by
  rw [same]
  change asExported file site.settings.project.version record = _
  rcases plain with fresh | ⟨other, told⟩
  · exact congrArg (asExported file _) fresh
  · exact (congrArg (asExported file _) told).trans (asExported_absorbs _ file other _)

theorem Exported.textual (firm : site.Firm) (exported : Exported site.grounds record) :
    record.Textual where
  source path member := by
    obtain ⟨names, some_, plain, same⟩ := exported.source path member
    rw [same]
    exact firm.sources.join (Path.isText_iff.2 ⟨some_, fun segment among => (plain segment among).noSlash⟩)
  xmir path member := by
    rw [exported.xmir] at member
    exact absurd member (by simp)
  optimized path member := by
    rw [exported.optimized] at member
    exact absurd member (by simp)
  discoveredAt path member := by
    rw [exported.discoveredAt] at member
    exact absurd member (by simp)

/-! ## Catalog files -/

/-- The file of a catalog holds its records; while it has none there need be no file. -/
def Filed (disk : Disk) (catalog : Catalog) : Prop :=
  (disk.entryAt? (catalog.path.goal disk.current) = some (.file (.text catalog.render)) ∧
      disk.Passable catalog.path) ∨
    catalog.records = [] ∧
      ∀ content, disk.entryAt? (catalog.path.goal disk.current) ≠ some (.file content)

/-- What opens is the catalog in its file. -/
theorem Filed.opened (ends : catalog.path.EndsInName) (sorted : catalog.Sorted)
    (textual : ∀ record ∈ catalog.records, record.Textual) (filed : Filed disk catalog)
    (opened : Catalog.openAt disk catalog.path = .ok grown) : grown = catalog := by
  rcases filed with ⟨stands, passable⟩ | ⟨empty, nothing⟩
  · have entry : disk.entry? catalog.path = some (.file (.text catalog.render)) := by
      rw [Disk.entry_of_name ends passable]
      exact stands
    rw [Catalog.openAt_written sorted textual entry] at opened
    split at opened
    · exact (Except.ok.inj opened).symm
    · exact absurd opened (by simp)
  · have isEmpty : catalog = ⟨catalog.path, []⟩ := by rw [← empty]
    rcases Catalog.openAt_cases opened with ⟨_, same⟩ | ⟨_, _, found, _⟩
    · rw [isEmpty]
      exact same
    · exact absurd (Disk.entry_eq_some found).2.2 (nothing _)

/-- A catalog whose counts fit opens from its file. -/
theorem Filed.opens (ends : catalog.path.EndsInName) (sorted : catalog.Sorted)
    (textual : ∀ record ∈ catalog.records, record.Textual)
    (countable : ∀ record ∈ catalog.records, record.Countable) (filed : Filed disk catalog)
    (noDirectory : disk.directoryAt (catalog.path.goal disk.current) = false) :
    Catalog.openAt disk catalog.path = .ok catalog := by
  rcases filed with ⟨stands, passable⟩ | ⟨empty, nothing⟩
  · refine Catalog.openAt_stands sorted textual countable ?_
    rw [Disk.entry_of_name ends passable]
    exact stands
  · have isEmpty : catalog = ⟨catalog.path, []⟩ := by rw [← empty]
    have missing : disk.exists? catalog.path = false := by
      rw [Bool.eq_false_iff]
      intro there
      obtain ⟨entry, found⟩ := Disk.exists?_iff.1 there
      have stands := (Disk.entry_eq_some found).2.2
      cases entry with
      | file content => exact nothing content stands
      | directory =>
        rw [Disk.directoryAt_iff.2 stands] at noDirectory
        exact absurd noDirectory (by simp)
    rw [Catalog.openAt_missing missing, ← isEmpty]

end Site

end EoAssembly.Build
