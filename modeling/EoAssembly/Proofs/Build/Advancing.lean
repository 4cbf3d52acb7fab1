import EoAssembly.Proofs.Build.Revising

/-!
Contract: parsing, optimizing and discovering keep the regime of a site.

The text of a source is one that the site expects, so its document is, and what the passes
make of that document.  A document is made for an object without one only, whose passes
have not run yet.  The names that are discovered may come up.

Owns the traversal of these stages.
-/

namespace EoAssembly.Build

open ObjectName (checkPlace)

namespace Site

variable {site : Site} {enrolled : Prop} {present : Workspace} {disk : Disk} {catalog : Catalog}
  {piece : Piece} {id name text source : String} {path : Path} {record : Record}
  {settings : Settings} {remote : Remote}

/-! ## What later steps keep -/

theorem stable_marked {mark : Record → Bool}
    (lasting : ∀ {old new : Record}, old.Within new → mark old = true → mark new = true) :
    (site.regime enrolled).Stable fun present => Marked mark present.foreign id :=
  fun _ _ later marked => marked.later lasting later.grows

theorem stable_stands {known : Prop} (live : known → site.Live piece id) :
    (site.regime enrolled).Stable fun present => known → site.Stands present.disk piece id :=
  fun _ _ later stands holds => later.stands piece id (live holds) (stands holds)

theorem stable_known :
    (site.regime enrolled).Stable fun present => ∃ record, present.foreign.find? name = some record := by
  rintro before after later ⟨record, found⟩
  obtain ⟨last, foundLast, _⟩ := later.grows name record found
  exact ⟨last, foundLast⟩

/-! ## Files that are read -/

/-- A piece that stands is found through its place. -/
theorem Laid.found (laid : site.Laid disk) (live : site.Live piece id) (noLog : piece ≠ .log)
    {content : FileContent} (holds : site.Holds disk piece id content) :
    disk.entry? (site.place piece id) = some (.file content) := by
  obtain ⟨ends, passable⟩ := laid.reached piece id live noLog ⟨content, holds⟩
  rw [Disk.entry_of_name ends passable, laid.current]
  exact holds

/-- What is found through the place of a piece stands there. -/
theorem Laid.holds (laid : site.Laid disk) {content : FileContent}
    (found : disk.entry? (site.place piece id) = some (.file content)) :
    site.Holds disk piece id content := by
  have stands := (Disk.entry_eq_some found).2.2
  rw [laid.current] at stands
  exact stands

theorem Laid.there (laid : site.Laid disk) {piece : Piece} (live : site.Live piece id)
    (noLog : piece ≠ .log) (stands : site.Stands disk piece id) :
    disk.exists? (site.place piece id) = true := by
  obtain ⟨content, holds⟩ := stands
  exact Disk.exists?_iff.2 ⟨_, laid.found live noLog holds⟩

/-- On exact grounds, what is found through the place of a piece is its file. -/
theorem Working.file (firm : site.Firm) (working : site.Working enrolled present) {piece : Piece}
    (live : site.Live piece id) (exact_ : site.exact)
    (there : present.disk.exists? (site.place piece id) = true) :
    site.Stands present.disk piece id := by
  obtain ⟨entry, found⟩ := Disk.exists?_iff.1 there
  cases entry with
  | file content => exact ⟨content, working.laid.holds found⟩
  | directory =>
    have nothing := (working.neat exact_).noDirectory (firm.exact exact_) (.piece live)
    have stands := (Disk.entry_eq_some found).2.2
    rw [working.laid.current] at stands
    rw [Disk.directoryAt_iff.2 stands] at nothing
    exact absurd nothing (by simp)

theorem readSource_eq_ok : readSource disk path = .ok text ↔
    disk.entry? path = some (.file (.text text)) := by
  rw [← Disk.readText_eq_ok]
  unfold readSource
  cases disk.readText path <;> simp

theorem namesIn_eq_ok {names : List String} : namesIn disk path = .ok names ↔
    ∃ text, disk.entry? path = some (.file (.text text)) ∧ namesOfText path text = .ok names := by
  unfold namesIn namesOfText
  cases loads : Document.load disk path with
  | error failure =>
    simp only [reduceCtorEq, false_iff, not_exists, not_and]
    intro text found reads
    cases isDocument : Document.ofText text path.text with
    | error cause => simp [isDocument, Except.map] at reads
    | ok document =>
      rw [Document.load_eq_ok.2 ⟨text, found, isDocument⟩] at loads
      exact absurd loads (by simp)
  | ok document =>
    obtain ⟨text, found, isDocument⟩ := Document.load_eq_ok.1 loads
    constructor
    · intro same
      exact ⟨text, found, by rw [isDocument]; exact same⟩
    · rintro ⟨other, foundOther, same⟩
      have isText : other = text := by
        rw [found] at foundOther
        simpa using foundOther.symm
      rw [isText, isDocument] at same
      exact same

/-! ## Texts of sources and documents -/

section Texts

variable (firm : site.Firm)

include firm

omit firm in
/-- A text that is read as the source of an object is one that the site expects. -/
theorem Working.sourceText (working : site.Working True present)
    (found : present.foreign.find? id = some record) (isSource : record.source = some path)
    (reads : readSource present.disk path = .ok text) :
    site.SourceText id text ∧ (record.pulled = true → site.Stands present.disk .pulled id) := by
  have fits := working.tells.found found
  have sameId := Catalog.id_of_find? found
  have entry := readSource_eq_ok.1 reads
  cases pulled : record.pulled with
  | true =>
    obtain ⟨foreign, source⟩ := fits.ofStore pulled
    rw [sameId] at foreign source
    rw [Option.some.inj (isSource.symm.trans source)] at entry
    have holds := working.laid.holds entry
    obtain ⟨other, same, answers⟩ := fits.answered pulled (.text text) (by rw [sameId]; exact holds)
    rw [sameId, ← FileContent.text.inj same] at answers
    exact ⟨(sourceText_stored foreign text).2 answers, fun _ => ⟨_, holds⟩⟩
  | false =>
    refine ⟨?_, fun wrong => absurd wrong (by simp)⟩
    obtain ⟨file, member, isFile, _⟩ := fits.ofProject pulled path isSource
    obtain ⟨last, isLast⟩ := registers_iff.1 (List.mem_map.2 ⟨file, member, isFile.trans sameId⟩)
    obtain ⟨twin, foundTwin, isTwin⟩ := working.enrolled trivial id last isLast
    rw [← Option.some.inj (found.symm.trans foundTwin)] at isTwin
    rw [Option.some.inj (isSource.symm.trans isTwin),
      working.laid.sources last (lastNamed_mem isLast).1] at entry
    exact (sourceText_registered isLast text).2 (Entry.file.inj (Option.some.inj entry))

/-- On flawless grounds the source of an object can be read. -/
theorem Working.source_reads (working : site.Working True present) (flawless : site.flawless)
    (found : present.foreign.find? id = some record) (isSource : record.source = some path) :
    ∃ text, readSource present.disk path = .ok text := by
  have able := firm.able flawless
  have fits := working.tells.found found
  cases pulled : record.pulled with
  | true =>
    have live := fits.live_stored pulled .pulled rfl
    obtain ⟨content, holds⟩ := fits.standing pulled (Or.inl able.exact)
    obtain ⟨text, same, _⟩ := fits.answered pulled content holds
    rw [same] at holds
    rw [Option.some.inj (isSource.symm.trans (fits.ofStore pulled).2)]
    exact ⟨text, readSource_eq_ok.2 (working.laid.found live (by simp) holds)⟩
  | false =>
    obtain ⟨file, member, isFile, _⟩ := fits.ofProject pulled path isSource
    obtain ⟨last, isLast⟩ := registers_iff.1 (List.mem_map.2
      ⟨file, member, isFile.trans (Catalog.id_of_find? found)⟩)
    obtain ⟨twin, foundTwin, isTwin⟩ := working.enrolled trivial id last isLast
    rw [← Option.some.inj (found.symm.trans foundTwin)] at isTwin
    obtain ⟨text, isText⟩ := able.texts id last isLast
    rw [Option.some.inj (isSource.symm.trans isTwin)]
    refine ⟨text, readSource_eq_ok.2 ?_⟩
    rw [working.laid.sources last (lastNamed_mem isLast).1, isText]

omit firm in
/-- A document is one that the parser made of an expected source. -/
theorem Laid.document (laid : site.Laid disk) (live : site.Live .parsed id)
    (holds : site.Holds disk .parsed id (.text text)) :
    ∃ source, site.SourceText id source ∧
      documentText site.settings site.parse id source = .ok text := by
  obtain ⟨source, other, expected, same, isText⟩ := laid.permits .parsed id _ live holds
  rw [FileContent.text.inj isText]
  exact ⟨source, expected, same⟩

/-- The names in an optimized document may come up. -/
theorem Laid.involves (laid : site.Laid disk) (live : site.Live .parsed id)
    (holds : site.Holds disk .optimized id (.text text)) {names : List String}
    (reads : namesOfText (site.place .optimized id) text = .ok names) :
    ∀ name ∈ names, site.involved name := by
  obtain ⟨⟨parsed, made, holdsParsed, isMade, same⟩, _⟩ :=
    laid.permits .optimized id _ live.optimized holds
  obtain ⟨source, expected, isParsed⟩ := laid.document live holdsParsed
  rw [FileContent.text.inj same] at reads
  exact firm.closed id source parsed made names live.involved expected isParsed isMade reads

end Texts

/-! ## Parsing -/

/-- An object waits for its document. -/
def Awaits (catalog : Catalog) (id : String) : Prop :=
  ∃ record, catalog.find? id = some record ∧ record.source.isSome = true ∧ record.xmir = none

section Stages

variable (firm : site.Firm) (suits : site.Suits settings remote)

include firm suits

theorem governs_parseObject (kept : String → Prop) (known : String → Option Record) :
    (site.regime True).Governs
      (fun present => Awaits present.foreign id ∧
        ∀ twin, kept twin → twin ≠ id → present.foreign.find? twin = known twin)
      (parseObject settings remote id) fun _ present =>
        ∀ twin, kept twin → twin ≠ id → present.foreign.find? twin = known twin := by
  refine .start fun start working here => ?_
  obtain ⟨⟨record, found, sourced, unparsed⟩, others⟩ := here
  obtain ⟨path, isSource⟩ := Option.isSome_iff_exists.1 sourced
  have fits := working.tells.found found
  have sameId := Catalog.id_of_find? found
  have live : site.Live .parsed id := sameId ▸ fits.live sourced
  have unmarked : ¬Marked (fun record => record.xmir.isSome) start.foreign id := by
    rintro ⟨twin, foundTwin, marked⟩
    rw [← Option.some.inj (found.symm.trans foundTwin)] at marked
    exact absurd marked (by simp [unparsed])
  unfold parseObject
  rw [suits.target]
  refine .bind governs_look fun seen => .given (fun same : seen = start => ?_)
    fun present _ here => here.1.trans here.2
  subst same
  rw [sourceOf_eq_ok.2 ⟨record, found, isSource⟩]
  refine .bind (governs_outcome fun _ _ _ _ => ⟨path, rfl⟩) fun other =>
    .given (fun isPath : path = other => ?_) fun _ _ here => Except.ok.inj here.1
  subst isPath
  refine .bind (governs_outcome fun flawless _ _ _ =>
    working.source_reads firm flawless found isSource) fun source =>
      .given (fun reads : readSource seen.disk path = .ok source => ?_) fun _ _ here => here.1
  obtain ⟨expected, standing⟩ := working.sourceText found isSource reads
  have able : site.flawless → ∃ made document text, site.parse id source = .ok made ∧
      Document.ofText made (site.place .parsed id).text = .ok document ∧
      document.render = .ok text := by
    intro flawless
    obtain ⟨text, isText, _⟩ := (firm.able flawless).documents id source live.involved expected
    obtain ⟨made, document, parts⟩ := documentText_eq_ok.1 isText
    exact ⟨made, document, text, parts⟩
  refine .bind ((governs_parse (fun disk foreign => disk = seen.disk ∧
    foreign = seen.foreign) suits fun flawless => ?_).from_ fun present _ here => ?_) fun made =>
      .given (fun parses : site.parse id source = .ok made => ?_) fun _ _ here => here.1
  · obtain ⟨made, _, _, parses, _⟩ := able flawless
    exact ⟨made, parses⟩
  · rw [here.2.2.2]
    exact ⟨rfl, rfl⟩
  refine .bind (governs_outcome fun flawless _ _ _ => ?_) fun document =>
    .given (fun isDocument : Document.ofText made (site.place .parsed id).text = .ok document => ?_)
      fun _ _ here => here.1
  · obtain ⟨other, document, _, parsesOther, isDocument, _⟩ := able flawless
    rw [← Except.ok.inj (parses.symm.trans parsesOther)] at isDocument
    exact ⟨document, isDocument⟩
  have pulledStands : (site.regime True).Stable fun present => record.pulled = true →
      site.Stands present.disk .pulled id :=
    stable_stands fun pulled => sameId ▸ fits.live_stored pulled .pulled rfl
  have saved := (governs_save firm (fun foreign => foreign = seen.foreign) live document (fun _ _ => False)
    (fun _ _ never => never.elim) fun flawless => ?_).keep pulledStands
  · refine .bind (saved.from_ fun present working here => ?_) fun _ => ?_
    · obtain ⟨_, _, isDisk, isForeign⟩ := here
      refine ⟨⟨⟨fun text renders => ?_, isForeign⟩, fun _ _ never => never.elim⟩, ?_⟩
      · have isText := documentText_eq_ok.2 ⟨made, document, parses, isDocument, renders⟩
        refine ⟨⟨source, text, expected, isText, rfl⟩, fun _ => ?_, fun wrong => absurd wrong (by simp),
          fun wrong => absurd wrong (by simp), fun _ => ?_, fun isMade => absurd rfl isMade⟩
        · rw [isForeign]
          exact unmarked
        · rw [isForeign]
          exact ⟨record, found, sourced⟩
      · rw [isDisk]
        exact standing
    · refine .bind ((governs_update firm (fun _ => True) kept known).weaken
        (fun present working here => ?_) fun _ _ _ told => told.2) fun _ => .pure fun _ _ here => here
      obtain ⟨⟨⟨stands, isForeign⟩, _⟩, standsPulled⟩ := here
      have foundHere : present.foreign.find? id = some record := by
        rw [isForeign]
        exact found
      have fitsHere := working.tells.found foundHere
      refine ⟨⟨record, foundHere, trivial, ?_⟩, by rw [isForeign]; exact others⟩
      rw [← sameId] at foundHere stands standsPulled ⊢
      exact allowed_parsed fitsHere foundHere rfl sourced unparsed stands standsPulled
  · obtain ⟨other, twin, text, parsesOther, isTwin, renders⟩ := able flawless
    rw [← Except.ok.inj (parses.symm.trans parsesOther)] at isTwin
    rw [← Except.ok.inj (isDocument.symm.trans isTwin)] at renders
    exact ⟨text, renders⟩

theorem governs_parseAll :
    (site.regime True).Governs (fun _ => True) (parseAll settings remote) fun _ _ => True := by
  refine .start fun start working _ => ?_
  have each : ∀ ids : List String, ids.Nodup → (∀ id ∈ ids, Awaits start.foreign id) →
      (site.regime True).Governs
        (fun present => ∀ id ∈ ids, present.foreign.find? id = start.foreign.find? id)
        (parseEach settings remote ids) fun _ _ => True := by
    intro ids
    induction ids with
    | nil => exact fun _ _ => .pure fun _ _ _ => trivial
    | cons id rest inductionHypothesis =>
      intro distinct awaits
      obtain ⟨fresh, distinctRest⟩ := List.nodup_cons.1 distinct
      refine .bind ((governs_parseObject firm suits (fun twin => twin ∈ rest)
        start.foreign.find?).from_ fun present _ here => ⟨?_, fun twin member _ =>
          here twin (List.mem_cons_of_mem id member)⟩) fun _ =>
        (inductionHypothesis distinctRest fun twin member =>
          awaits twin (List.mem_cons_of_mem id member)).from_ fun _ _ here twin member =>
            here twin member fun same => fresh (same ▸ member)
      obtain ⟨record, found, rest⟩ := awaits id List.mem_cons_self
      exact ⟨record, (here id List.mem_cons_self).trans found, rest⟩
  refine .bind governs_look fun pending => .given (fun same : pending = unparsed start.foreign => ?_)
    fun present _ here => by rw [here.1, here.2]
  have distinct : pending.Nodup := by
    rw [same]
    exact working.tells.sorted.nodup_ids.sublist (List.filter_sublist.map Record.id)
  refine .bind ((each pending distinct fun id member => ?_).from_ fun present _ here twin _ =>
    by rw [here.2]) fun _ => .pure fun _ _ _ => trivial
  rw [same] at member
  obtain ⟨record, among, rfl⟩ := List.mem_map.1 member
  obtain ⟨inside, waits⟩ := List.mem_filter.1 among
  unfold awaitsParse at waits
  rw [Bool.and_eq_true, Option.isNone_iff_eq_none] at waits
  exact ⟨record, Catalog.find?_of_mem working.tells.sorted inside, waits⟩

end Stages

end Site

end EoAssembly.Build
