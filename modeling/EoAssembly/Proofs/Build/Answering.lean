import EoAssembly.Proofs.Build.Deriving

/-!
Contract: pulling keeps the regime of a site.

A name to pull may come up, since an optimized document refers to it.  When it has no
source in the project no file registers it, so what is pulled for it is an answer of the
store: either it was fetched just now, or it was there and builds keep it.  On exact grounds
every such name ends with a source.

Owns the traversal of pulling, and of cycles.
-/

namespace EoAssembly.Build

open ObjectName (checkPlace)

namespace Site

variable {site : Site} {enrolled : Prop} {present : Workspace} {disk : Disk} {catalog : Catalog}
  {id name text : String} {path : Path} {record : Record} {settings : Settings} {remote : Remote}
  {known : Option HashTable} {hash : Option String}

/-! ## Objects from the store -/

/-- A record of an object that no file registers, and that isn't recorded as pulled, is one
that no stage has touched. -/
theorem Fits.fresh (fits : site.Fits disk catalog record) (foreign : ¬site.Registers record.id)
    (unpulled : record.pulled = false) : record.xmir = none ∧ record.discovered = none := by
  obtain ⟨noXmir, _, noCount⟩ := fits.untouched (fits.unsourced foreign unpulled)
  exact ⟨noXmir, noCount⟩

/-- A registered object has a source in the project. -/
theorem Working.isLocal (working : site.Working True present) (registers : site.Registers name) :
    Build.isLocal present.foreign name = true := by
  obtain ⟨file, last⟩ := registers_iff.1 registers
  obtain ⟨record, found, isSource⟩ := working.enrolled trivial name file last
  have unpulled := (working.tells.found found).unpulled (by
    rw [Catalog.id_of_find? found]
    exact registers)
  simp [Build.isLocal, found, isSource, unpulled]

theorem marked_of_isLocal (left : Build.isLocal catalog name = true) :
    Marked (fun record => record.source.isSome) catalog name := by
  unfold Build.isLocal at left
  cases found : catalog.find? name with
  | none =>
    rw [found] at left
    exact absurd left (by simp)
  | some record =>
    rw [found] at left
    exact ⟨record, found, (Bool.and_eq_true_iff.1 left).1⟩

/-- What is recorded as pulled is recorded with the place of its source. -/
theorem Working.isRecorded (working : site.Working True present)
    (found : present.foreign.find? name = some record) :
    Build.isRecorded present.foreign name (site.place .pulled name) = record.pulled := by
  cases pulled : record.pulled with
  | true =>
    have source := ((working.tells.found found).ofStore pulled).2
    rw [Catalog.id_of_find? found] at source
    exact isRecorded_of_pulled found pulled source
  | false =>
    rw [Bool.eq_false_iff]
    intro recorded
    obtain ⟨twin, _, foundTwin, pulledTwin, _⟩ := isRecorded_iff.1 recorded
    rw [← Option.some.inj (found.symm.trans foundTwin), pulled] at pulledTwin
    exact absurd pulledTwin (by simp)

/-- An object of the store whose source is missing wasn't discovered. -/
theorem Working.undiscovered_of_missing (working : site.Working True present)
    (involved : site.involved name) (foreign : ¬site.Registers name)
    (checks : checkPlace name = .ok ())
    (missing : present.disk.exists? (site.place .pulled name) = false) (exact_ : site.exact)
    (found : present.foreign.find? name = some record) : record.discovered = none := by
  have fits := working.tells.found found
  have sameId := Catalog.id_of_find? found
  cases pulled : record.pulled with
  | false => exact (fits.fresh (sameId ▸ foreign) pulled).2
  | true =>
    have stands := fits.standing pulled (Or.inl exact_)
    rw [sameId] at stands
    have live := live_stored involved foreign checks .pulled rfl
    rw [working.laid.there live (by simp) stands] at missing
    exact absurd missing (by simp)

/-- The names that are pulled may come up. -/
theorem Working.referred (firm : site.Firm) (working : site.Working enrolled present)
    (member : name ∈ referredNames present.disk present.foreign) : site.involved name := by
  obtain ⟨record, among, document, names, isOptimized, reads, inside⟩ := mem_referredNames.1 member
  have fits := working.tells.records record among
  have optimized : record.optimized.isSome = true := by rw [isOptimized]; rfl
  have live := fits.live (fits.sourced_of_parsed (fits.parsed_of_optimized optimized))
  obtain ⟨text, entry, readsText⟩ := namesIn_eq_ok.1 reads
  rw [(fits.optimized document isOptimized).1] at entry readsText
  exact working.laid.involves firm live (working.laid.holds entry) readsText name inside

/-! ## Hashes -/

/-- A table that builds know is the one of the tags. -/
def Tabled (site : Site) (known : Option HashTable) : Prop :=
  site.exact → ∀ table ∈ known, ∃ text, site.tags = .ok text ∧ HashTable.ofText text = .ok table

theorem pinnedHash_eq {version : String} {table : HashTable} {tags : Except Failure String}
    (versioned : (ObjectName.split name).2 = some version) (isTags : tags = .ok text)
    (isTable : HashTable.ofText text = .ok table) {value : String}
    (gets : table.get version = .ok value) : pinnedHash tags name = some value := by
  unfold pinnedHash
  simp only [versioned, isTags, isTable, gets]
  rfl

section Stages

variable (firm : site.Firm) (suits : site.Suits settings remote)

include firm suits

theorem governs_tableFor (tabled : site.Tabled known)
    (able : site.flawless → ∃ text table, site.tags = .ok text ∧ HashTable.ofText text = .ok table) :
    (site.regime True).Governs (fun _ => True) (tableFor remote known) fun table _ =>
      site.exact → ∃ text, site.tags = .ok text ∧ HashTable.ofText text = .ok table := by
  unfold tableFor
  split
  · next table =>
    exact .pure fun _ _ _ exact_ => tabled exact_ table rfl
  · exact ((governs_table (fun _ _ => True) firm suits able).telling fun _ _ _ told => told.1)

theorem governs_pinned (tabled : site.Tabled known) (pins : site.flawless → Pins site.tags name) :
    (site.regime True).Governs (fun _ => True) (pinned remote known name) fun pin _ =>
      (site.exact → pin.1 = pinnedHash site.tags name) ∧ site.Tabled pin.2 := by
  unfold pinned
  split
  · next unversioned =>
    refine .pure fun _ _ _ => ⟨fun _ => ?_, tabled⟩
    unfold pinnedHash
    rw [unversioned]
  · next version versioned =>
    refine .bind (governs_tableFor firm suits tabled fun flawless => ?_) fun table =>
      .given (fun isTable : site.exact → ∃ text, site.tags = .ok text ∧
        HashTable.ofText text = .ok table => ?_) fun _ _ told => told
    · obtain ⟨text, table, _, isTags, isTable, _⟩ := pins flawless version versioned
      exact ⟨text, table, isTags, isTable⟩
    refine .bind (governs_outcome fun flawless _ _ _ => ?_) fun value =>
      .given (fun gets : table.get version = .ok value => ?_) fun _ _ told => told.1
    · obtain ⟨text, twin, value, isTags, isTwin, gets⟩ := pins flawless version versioned
      obtain ⟨other, isOther, isTable⟩ := isTable (firm.able flawless).exact
      rw [← Except.ok.inj (isTags.symm.trans isOther)] at isTable
      rw [Except.ok.inj (isTable.symm.trans isTwin)]
      exact ⟨value, gets⟩
    · refine .pure fun _ _ _ => ⟨fun exact_ => ?_, fun exact_ other isOther => ?_⟩
      · obtain ⟨text, isTags, isText⟩ := isTable exact_
        exact (pinnedHash_eq versioned isTags isText gets).symm
      · rw [← Option.some.inj (Option.mem_def.1 isOther)]
        exact isTable exact_

/-! ## Pulling -/

section Foreign

variable (involved : site.involved name) (foreign : ¬site.Registers name)
  (checks : checkPlace name = .ok ())

include involved foreign checks

/-- What is fetched is written as the source of an object, and then its log. -/
theorem governs_fetchSource (said : Catalog → Prop) :
    (site.regime True).Governs (fun present => said present.foreign)
      (fetchSource remote name (site.place .pulled name) (site.place .log name)) fun _ present =>
        (site.Stands present.disk .pulled name ∧ site.Answered present.disk name) ∧
          said present.foreign := by
  have live := live_stored involved foreign checks .pulled rfl
  have liveLog := live_stored involved foreign checks .log rfl
  have stays : (site.regime True).Stable fun present =>
      site.Stands present.disk .pulled name ∧ site.Answered present.disk name :=
    fun _ _ later here => ⟨later.stands _ _ live here.1, later.answered _ live here.2⟩
  have written : ∀ text, site.answers name text →
      (site.regime True).Governs (fun present => said present.foreign)
        (Step.write (site.place .pulled name) text) fun _ present =>
          (site.Stands present.disk .pulled name ∧ site.Answered present.disk name) ∧
            said present.foreign := by
    intro text answers
    refine (governs_write firm said live (fun _ _ => False) fun _ _ never => never.elim).weaken
      (fun present _ here => ⟨⟨⟨fun _ => ⟨text, rfl, answers⟩, fun wrong => absurd wrong (by simp),
        fun _ => answers, fun wrong => absurd wrong (by simp), fun wrong => absurd wrong (by simp),
        fun wrong => absurd rfl wrong⟩, here⟩, fun _ _ never => never.elim⟩)
      fun _ present _ told => ?_
    obtain ⟨⟨holds, here⟩, _⟩ := told
    exact ⟨⟨holds.stands, fun content other => ⟨text, other.unique holds, answers⟩⟩, here⟩
  have logged : ∀ log, (site.regime True).Governs
      (fun present => (site.Stands present.disk .pulled name ∧ site.Answered present.disk name) ∧
        said present.foreign)
      (Step.write (site.place .log name) log) fun _ present =>
        (site.Stands present.disk .pulled name ∧ site.Answered present.disk name) ∧
          said present.foreign := by
    refine fun log => ((governs_write firm said liveLog (fun _ _ => False)
      fun _ _ never => never.elim).keep stays).weaken (fun present _ here => ?_)
        fun _ _ _ told => ⟨told.2, told.1.1.2⟩
    obtain ⟨⟨stands, answered⟩, known⟩ := here
    exact ⟨⟨⟨⟨fun _ => stands, fun wrong => absurd wrong (by simp),
      fun wrong => absurd wrong (by simp), fun wrong => absurd wrong (by simp),
      fun wrong => absurd wrong (by simp), fun wrong => absurd rfl wrong⟩, known⟩,
      fun _ _ never => never.elim⟩, stands, answered⟩
  refine .bind (governs_fetch (fun _ foreign => said foreign) suits
    fun _ => ⟨involved, foreign⟩) fun text =>
      .given (fun answers : site.answers name text => ?_) fun _ _ told => told.1
  exact .bind ((written text answers).from_ fun _ _ told => told.2) fun _ =>
    .bind governs_look fun _ => (logged _).from_ fun _ _ told => told.2

/-- A source that the store answers is recorded, and parsed unless its object has a document. -/
theorem governs_recordPulled (isPinned : site.exact → hash = pinnedHash site.tags name) :
    (site.regime True).Governs
      (fun present => site.Answered present.disk name ∧
        (site.exact → site.Stands present.disk .pulled name) ∧
          ∀ record, present.foreign.find? name = some record →
            (record.xmir.isSome = true → site.Stands present.disk .pulled name) ∧
              (site.exact → record.discovered = none))
      (recordPulled settings remote name (site.place .pulled name) hash) fun _ present =>
        Marked (fun record => record.source.isSome) present.foreign name := by
  have live := live_stored involved foreign checks .pulled rfl
  refine .start fun start working here => ?_
  obtain ⟨answered, standsExact, each⟩ := here
  have stays : (site.regime True).Stable fun present => site.Answered present.disk name ∧
      (site.Stands start.disk .pulled name → site.Stands present.disk .pulled name) :=
    fun _ _ later told => ⟨later.answered _ live told.1, fun stands => later.stands _ _ live
      (told.2 stands)⟩
  unfold recordPulled
  refine .bind (((governs_add firm involved (fun record =>
    (record.xmir.isSome = true → site.Stands start.disk .pulled name) ∧
      (site.exact → record.discovered = none))
    ⟨fun wrong => absurd wrong (by simp [Record.ofId]), fun _ => rfl⟩).keep stays).from_
      fun present _ same => ?_) fun _ => ?_
  · rw [same]
    exact ⟨each, answered, fun stands => stands⟩
  refine .bind ((governs_update firm (fun record => record.source.isSome = true) (fun _ => False)
    fun _ => none).from_ fun present working told => ?_) fun updated => ?_
  · obtain ⟨⟨found, stood, undiscovered⟩, isAnswered, stands⟩ := told
    have fits := working.tells.found found
    have sameId := Catalog.id_of_find? found
    refine ⟨⟨_, found, rfl, ?_⟩, fun _ never => never.elim⟩
    rw [← sameId] at found foreign checks isAnswered isPinned ⊢
    refine allowed_pulled fits found foreign checks isAnswered (fun when => ?_) undiscovered isPinned
    rw [sameId]
    exact stands (when.elim standsExact stood)
  have sourced : (site.regime True).Governs
      (fun present => (present.foreign.find? name = some updated ∧ updated.source.isSome = true) ∧
        ∀ twin, False → twin ≠ name → present.foreign.find? twin = none)
      (Pure.pure PUnit.unit : Step PUnit) fun _ present =>
        Marked (fun record => record.source.isSome) present.foreign name :=
    .pure fun _ _ told => ⟨updated, told.1.1, told.1.2⟩
  refine .ite (fun unparsed => ?_) fun _ => sourced
  have marked : (site.regime True).Stable fun present =>
      Marked (fun record => record.source.isSome) present.foreign name :=
    stable_marked Record.Within.source
  refine .bind (((governs_parseObject firm suits (fun _ => False) fun _ => none).keep marked).from_
    fun _ _ told => ⟨⟨⟨updated, told.1.1, told.1.2, Option.isNone_iff_eq_none.1 unparsed⟩,
      fun _ never => never.elim⟩, updated, told.1.1, told.1.2⟩) fun _ => .pure fun _ _ told => told.2

/-- The source of an object that no file registers is fetched, or kept when it is there. -/
theorem governs_pullPinned (isPinned : site.exact → hash = pinnedHash site.tags name) :
    (site.regime True).Governs (fun _ => True) (pullPinned settings remote name hash)
      fun _ present =>
        site.exact → Marked (fun record => record.source.isSome) present.foreign name := by
  have live := live_stored involved foreign checks .pulled rfl
  have liveLog := live_stored involved foreign checks .log rfl
  refine .start fun start working _ => ?_
  unfold pullPinned
  rw [suits.target, suits.protocols]
  refine .bind governs_look fun disk => .given (fun same : disk = start.disk => ?_)
    fun present _ told => by rw [told.1, told.2]
  subst same
  split
  · next leaves =>
    refine .pure fun present _ _ exact_ => ?_
    obtain ⟨missing, logged⟩ := pullChoice_leave leaves
    -- a log without a source can't be where builds keep what is there
    obtain ⟨content, holds⟩ := working.file firm liveLog exact_ logged
    have stands := working.laid.permits _ _ _ liveLog holds exact_
    exact absurd ((working.laid.there live (by simp) stands).symm.trans missing) (by simp)
  · next fetches =>
    refine .bind ((governs_fetchSource firm suits involved foreign checks
      fun catalog => catalog = start.foreign).from_ fun _ _ told => by rw [told.2]) fun _ =>
        .bind ((governs_recordPulled firm suits involved foreign checks isPinned).from_
          fun present _ told => ?_) fun _ => .pure fun _ _ told _ => told
    obtain ⟨⟨stands, answered⟩, same⟩ := told
    refine ⟨answered, fun _ => stands, fun record found => ⟨fun _ => stands, fun exact_ => ?_⟩⟩
    rw [same] at found
    exact working.undiscovered_of_missing involved foreign checks
      (pullChoice_fetch fetches (suits.leaves exact_)) exact_ found
  · next keeps =>
    obtain ⟨off, there⟩ := pullChoice_keep keeps
    have isKept : site.keeps := by
      by_contra never
      exact absurd (off.symm.trans (suits.overwrites never)) (by simp)
    refine .bind governs_look fun isKnown => .given (fun same : isKnown =
      isRecorded start.foreign name (site.place .pulled name) => ?_) fun present _ told => ?_
    · refine .ite (fun unknown => ?_) fun known => .pure fun present _ told _ => ?_
      · have unrecorded : ∀ record, start.foreign.find? name = some record →
            record.pulled = false := by
          intro record found
          rw [← working.isRecorded found, ← same]
          simpa using unknown
        refine .bind ((governs_recordPulled firm suits involved foreign checks isPinned).from_
          fun present _ told => ?_) fun _ => .pure fun _ _ told _ => told
        obtain ⟨_, _, rfl⟩ := told
        refine ⟨fun content holds => working.laid.permits _ _ _ live holds isKept,
          fun exact_ => working.file firm live exact_ there, fun record found => ?_⟩
        have fits := working.tells.found found
        have sameId := Catalog.id_of_find? found
        obtain ⟨noXmir, noCount⟩ := fits.fresh (sameId ▸ foreign) (unrecorded record found)
        exact ⟨fun parsed => absurd parsed (by simp [noXmir]), fun _ => noCount⟩
      · obtain ⟨_, _, isStart⟩ := told
        rw [isStart]
        obtain ⟨record, path, found, _, source, _⟩ := isRecorded_iff.1
          (show isRecorded start.foreign name (site.place .pulled name) = true by
            rw [← same]
            simpa using known)
        exact ⟨record, found, by simp [source]⟩
    · obtain ⟨isSeen, _, isStart⟩ := told
      rw [isSeen, isStart]
      rfl

end Foreign

/-- A name ends with a source, on exact grounds. -/
theorem governs_pullName (involved : site.involved name) (tabled : site.Tabled known) :
    (site.regime True).Governs (fun _ => True) (pullName settings remote known name)
      fun pulled present =>
        (site.exact → Marked (fun record => record.source.isSome) present.foreign name) ∧
          site.Tabled pulled.2 := by
  refine .start fun start working _ => ?_
  unfold pullName
  refine .bind governs_look fun left => .given (fun same : left = Build.isLocal start.foreign name =>
    ?_) fun present _ told => by rw [told.1, told.2]
  refine .ite (fun isLeft => .pure fun present _ told => ⟨fun _ => ?_, tabled⟩) fun taken => ?_
  · rw [told.2]
    exact marked_of_isLocal (same.symm.trans isLeft)
  have foreign : ¬site.Registers name := fun registers =>
    taken (same.trans (working.isLocal registers))
  refine .bind (governs_outcome fun flawless _ _ _ =>
    ⟨(), (firm.able flawless).placed name involved foreign⟩) fun _ =>
      .given (fun checks : checkPlace name = .ok () => ?_) fun _ _ told => told.1
  refine .bind ((governs_pinned firm suits tabled fun flawless =>
    (firm.able flawless).pins name involved foreign).from_ fun _ _ _ => trivial) fun pin =>
      .given (fun isPinned : (site.exact → pin.1 = pinnedHash site.tags name) ∧ site.Tabled pin.2 =>
        ?_) fun _ _ told => told
  exact .bind ((governs_pullPinned firm suits involved foreign checks isPinned.1).from_
    fun _ _ _ => trivial) fun _ => .pure fun _ _ told => ⟨told, isPinned.2⟩

theorem governs_pullEach (names : List String) : ∀ known : Option HashTable, site.Tabled known →
    (∀ name ∈ names, site.involved name) →
    (site.regime True).Governs (fun _ => True) (pullEach settings remote known names)
      fun _ present => ∀ name ∈ names, site.exact →
        Marked (fun record => record.source.isSome) present.foreign name := by
  induction names with
  | nil => exact fun _ _ _ => .pure fun _ _ _ _ wrong => absurd wrong (by simp)
  | cons name rest inductionHypothesis =>
    intro known tabled involved
    have stays : (site.regime True).Stable fun present =>
        site.exact → Marked (fun record => record.source.isSome) present.foreign name :=
      fun before after later marked exact_ => stable_marked Record.Within.source before after later
        (marked exact_)
    refine .bind (governs_pullName firm suits (involved name List.mem_cons_self) tabled)
      fun pulled => .given (fun isTabled : site.Tabled pulled.2 => ?_) fun _ _ told => told.2
    refine .bind (((inductionHypothesis pulled.2 isTabled fun other member =>
      involved other (List.mem_cons_of_mem name member)).keep stays).from_ fun _ _ told =>
        ⟨trivial, told.1⟩) fun _ => .pure fun present _ told other member => ?_
    rcases List.mem_cons.1 member with same | behind
    · rw [same]
      exact told.2
    · exact told.1 other behind

/-- On exact grounds, all names that optimized documents refer to end with a source. -/
theorem governs_pullAll {start : Workspace} :
    (site.regime True).Governs (fun present => present = start) (pullAll settings remote)
      fun _ present => ∀ name ∈ referredNames start.disk start.foreign, site.exact →
        Marked (fun record => record.source.isSome) present.foreign name := by
  refine .start fun present working same => ?_
  subst same
  unfold pullAll
  refine .bind governs_look fun names =>
    .given (fun isNames : names = referredNames present.disk present.foreign => ?_)
      fun other _ told => by rw [told.1, told.2]
  rw [← isNames]
  refine (governs_pullEach firm suits names none (fun _ table wrong => absurd wrong (by simp))
    fun name member => ?_).from_ fun _ _ _ => trivial
  rw [isNames] at member
  exact working.referred firm member

end Stages

end Site

end EoAssembly.Build
