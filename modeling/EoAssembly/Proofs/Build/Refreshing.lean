import EoAssembly.Proofs.Build.Closure
import EoAssembly.Proofs.Build.Successive

/-!
Contract: what overwriting does for the documents of pulled sources.

A project is assembled again and again while its own sources stay as they are; the store
may answer other texts each time, and sources may be overwritten or kept.  Overwriting
fetches a source again, but an object whose document is recorded is not parsed again, and
one whose optimized document is there is not optimized again.  So a document follows the
current text of a source only when the object had no source before.

Owns `Renewal`, its histories, and what an assembly that overwrites ends with.
-/

namespace EoAssembly.Build

open ObjectName (Storable checkPlace placeable_of_checkPlace)
open Path (IsName)

/-! ## Histories -/

/-- One assembly of a project: its settings, and what the store and the table answer. -/
structure Round where
  settings : Settings
  store : String → Except Failure String
  table : Disk → Except Failure String

/-- The outside of an assembly. -/
def Round.remote (round : Round) (parse : String → String → Except Failure String) : Remote :=
  ⟨Remote.fetchOf round.store, parse, round.table⟩

/-- A project that is assembled again and again: the disk before the first assembly, the files
that are registered with what they hold, and the parser. -/
structure Renewal where
  settings : Settings
  start : Disk
  files : List Path
  content : Path → FileContent
  parse : String → String → Except Failure String

namespace Renewal

variable {project : Renewal} {rounds more : List Round} {round last : Round} {disk : Disk}
  {id text : String}

/-- What the store answers for a name in one of the rounds. -/
def Answers (rounds : List Round) (id text : String) : Prop :=
  ∃ round ∈ rounds, round.store id = .ok text

/-- A round works on the project: in the same directories, with the same files. -/
structure Hosts (project : Renewal) (round : Round) (disk : Disk) : Prop where
  sources : round.settings.sources = project.settings.sources
  target : round.settings.target = project.settings.target
  protocols : round.settings.protocols = project.settings.protocols
  versions : round.settings.withVersions = project.settings.withVersions
  files : registeredFiles round.settings disk = project.files

/-- Rounds that were worked one after the other, each on the disk that the one before left,
and whether it succeeded or not. -/
inductive History (project : Renewal) : List Round → Disk → Prop where
  | start : History project [] project.start
  | next {rounds : List Round} {round : Round} {before after : Workspace}
    {outcome : Except Failure Assembly} (earlier : History project rounds before.disk)
    (hosts : project.Hosts round before.disk)
    (ran : (assemble round.settings (round.remote project.parse)).perform before =
      (outcome, after)) : History project (rounds ++ [round]) after.disk

/-- A project with answers of a store, as a site. -/
def base (project : Renewal) (answers : String → String → Prop) (keeps : Prop)
    (involved : String → Prop) : Site where
  settings := project.settings
  start := project.start
  files := project.files
  content := project.content
  parse := project.parse
  answers := answers
  involved := involved
  tags := .ok ""
  keeps := keeps
  exact := False
  flawless := False

/-- The objects that may come up in a history: those of the files, and those that a document of
one refers to. -/
inductive Arises (project : Renewal) (rounds : List Round) : String → Prop where
  | root {file : Path} (member : file ∈ project.files) : Arises project rounds (idOf file)
  | refers {id source text made name : String} {names : List String}
    (before : Arises project rounds id)
    (expected : (project.base (Answers rounds) True fun _ => False).SourceText id source)
    (document : documentText project.settings project.parse id source = .ok text)
    (optimized : madeText project.settings Pass.all id text = .ok made)
    (reads : namesOfText (optimizedPlace project.settings.target id) made = .ok names)
    (member : name ∈ names) : Arises project rounds name

/-- The site of a history. -/
def site (project : Renewal) (rounds : List Round) : Site :=
  project.base (Answers rounds) True (project.Arises rounds)

/-- What a history rests on: nothing is in the target at first, and the files that builds make
of the objects that may come up have places of their own. -/
structure Firm (project : Renewal) (rounds : List Round) : Prop where
  sound : project.start.Sound
  sources : project.settings.sources.IsText
  target : project.settings.target.IsText
  named : ∀ file ∈ project.files, file.segments ≠ [] ∧ ∀ name ∈ file.segments, IsName name
  stand : ∀ file ∈ project.files,
    project.start.entry? (project.settings.sources.join file) = some (.file (project.content file))
  empty : ∀ location, project.settings.target.goal project.start.current <+: location →
    ∀ content, project.start.entryAt? location ≠ some (.file content)
  distinct : ∀ piece id other twin, (project.site rounds).Live piece id →
    (project.site rounds).Live other twin →
    (project.site rounds).spot piece id = (project.site rounds).spot other twin →
      piece = other ∧ id = twin
  aloof : ∀ file ∈ project.files,
    (∀ piece id, (project.site rounds).Live piece id →
      (project.settings.sources.join file).goal project.start.current ≠
        (project.site rounds).spot piece id) ∧
    ∀ name ∈ catalogFiles, (project.settings.sources.join file).goal project.start.current ≠
      (project.site rounds).catalogSpot name
  logs : ∀ id, (project.site rounds).Live .log id → ∀ name ∈ catalogFiles,
    (project.site rounds).spot .log id ≠ (project.site rounds).catalogSpot name

end Renewal

/-! ## Places -/

namespace Site

variable {site : Site} {piece : Piece} {id : String}

/-- The name of an object that may come up holds no slash. -/
theorem Live.storable (live : site.Live piece id)
    (named : ∀ file ∈ site.files, ∀ name ∈ file.segments, IsName name) : Storable id := by
  by_cases registers : site.Registers id
  · obtain ⟨file, member, rfl⟩ := List.mem_map.1 registers
    exact storable_idOf (named file member)
  · exact (placeable_of_checkPlace (live.placed registers)).storable

/-- All pieces but logs lead into the target, beside the catalog files. -/
theorem Live.inside (live : site.Live piece id) (noLog : piece ≠ .log)
    (named : ∀ file ∈ site.files, ∀ name ∈ file.segments, IsName name) :
    (site.place piece id).Inside site.current site.settings.target := by
  have storable := live.storable named
  cases isPiece : piece with
  | parsed => exact inside_parsedPlace storable _ _
  | optimized => exact inside_optimizedPlace storable _ _
  | pulled => exact inside_pulledPlace storable _ _
  | log => exact absurd isPiece noLog
  | step index =>
    have below := live.position index isPiece
    have plain := stepFiles_plain (Pass.all[index], index)
      (List.mem_zipIdx_iff_getElem?.2 (List.getElem?_eq_getElem below))
    have name : Piece.stepName index = Pass.stepFile index Pass.all[index] :=
      stepName_eq (List.getElem?_eq_getElem below)
    have inside := inside_step storable plain.1 plain.2 site.settings.target site.current
    rw [← name] at inside
    exact inside

end Site

namespace Renewal

variable {project : Renewal} {rounds more : List Round} {round last : Round} {disk : Disk}
  {id text : String}

section Rests

variable (firm : project.Firm rounds)

include firm

/-- Narrower answers leave what a history rests on. -/
theorem Firm.site {answers : String → String → Prop} (keeps : Prop)
    (fewer : ∀ id text, answers id text → Answers rounds id text) :
    (project.base answers keeps (project.Arises rounds)).Firm where
  sources := firm.sources
  target := firm.target
  names := firm.named
  roots _ member := .root member
  closed id source text made names involved expected isText isMade reads name member := by
    refine .refers involved ?_ isText isMade reads member
    unfold Site.SourceText at expected ⊢
    split at expected
    · next file last =>
      split
      · next twin lastTwin => exact Option.some.inj (last.symm.trans lastTwin) ▸ expected
      · next none => exact absurd (last.symm.trans none) (by simp)
    · next none =>
      split
      · next file last => exact absurd (none.symm.trans last) (by simp)
      · exact fewer id source expected
  apart piece id other twin live liveOther :=
    firm.distinct piece id other twin ⟨live.1, live.2, live.3, live.4⟩
      ⟨liveOther.1, liveOther.2, liveOther.3, liveOther.4⟩
  beside piece id live file known := by
    by_cases isLog : piece = .log
    · rw [isLog] at live ⊢
      exact firm.logs id ⟨live.1, live.2, live.3, live.4⟩ file known
    · exact (live.inside isLog fun file member => (firm.named file member).2).not_catalog known
  aloof file member :=
    ⟨fun piece id live => (firm.aloof file member).1 piece id ⟨live.1, live.2, live.3, live.4⟩,
      (firm.aloof file member).2⟩
  exact := False.elim
  able := False.elim

/-- Nothing was made of any object before the first round. -/
theorem Firm.vacant {piece : Piece} (live : (project.site rounds).Live piece id)
    (noLog : piece ≠ .log) : ¬(project.site rounds).Stands project.start piece id := by
  rintro ⟨content, holds⟩
  exact firm.empty _ (live.inside noLog fun file member => (firm.named file member).2).below content
    holds

/-- A project that was never assembled can be taken up. -/
theorem Firm.resumable : (project.site rounds).Resumable project.start := by
  refine Site.resumable_start firm.sound firm.stand False.elim (fun piece id live noLog =>
    firm.vacant live (noLog.resolve_right fun never => never)) fun file known => firm.empty _ ?_
  have components : (project.settings.target.child file).components =
      project.settings.target.components ++ [file].map Path.Component.named :=
    Path.components_child _ (catalogNames_plain file known).1
  rw [show (project.site rounds).settings = project.settings from rfl,
    Path.goal_of_names _ components]
  exact List.prefix_append _ _

omit firm in
theorem Hosts.selects (hosts : project.Hosts round disk) {site : Site}
    (files : site.files = project.files) (flawed : ¬site.flawless) :
    site.Selects round.settings disk :=
  ⟨hosts.files.trans files.symm, fun flawless => absurd flawless flawed,
    fun flawless => absurd flawless flawed, fun flawless => absurd flawless flawed,
    fun flawless => absurd flawless flawed⟩

omit firm in
theorem Hosts.suits (hosts : project.Hosts round disk) {answers : String → String → Prop}
    {keeps : Prop} {involved : String → Prop}
    (overwrites : ¬keeps → round.settings.overwrite = true)
    (answered : ∀ id text, round.store id = .ok text → answers id text) :
    (project.base answers keeps involved).Suits round.settings (round.remote project.parse) where
  sources := hosts.sources
  target := hosts.target
  protocols := hosts.protocols
  versions := hosts.versions
  project := False.elim
  overwrites := overwrites
  leaves := False.elim
  parse _ _ _ made := made
  fetch _ _ := rfl
  answers name _ text := answered name text
  table := False.elim
  parses := False.elim
  fetches := False.elim
  tables := False.elim

/-- After every round the work can be taken up. -/
theorem Firm.history {past : List Round} (known : ∀ round ∈ past, round ∈ rounds)
    (history : project.History past disk) : (project.site rounds).Resumable disk := by
  induction history with
  | start => exact firm.resumable
  | @next past round before after outcome earlier hosts ran inductionHypothesis =>
    have resumable := inductionHypothesis fun other member =>
      known other (List.mem_append_left _ member)
    have isFirm : (project.site rounds).Firm := firm.site True fun _ _ answered => answered
    have suits : (project.site rounds).Suits round.settings (round.remote project.parse) :=
      hosts.suits (fun never => absurd trivial never)
        fun id text answered => ⟨round, known round (by simp), answered⟩
    have selects : (project.site rounds).Selects round.settings before.disk :=
      hosts.selects rfl fun never => never
    cases outcome with
    | ok answer =>
      obtain ⟨_, _, _, _, working, _⟩ := resumable.yields isFirm suits (fun never => never) selects
        False.elim ran
      exact working.resumable
    | error failure =>
      exact resumable.stops isFirm suits (fun never => never) selects False.elim ran

end Rests

/-! ## Overwriting -/

/-- The answers that count for an assembly: that of the last round for an object without a
source when it began, and that of any round for the others. -/
def Latest (rounds : List Round) (last : Round) (opened : Catalog) (id text : String) : Prop :=
  (Marked (fun record => record.source.isSome) opened id ∧ Answers (rounds ++ [last]) id text) ∨
    ¬Marked (fun record => record.source.isSome) opened id ∧ last.store id = .ok text

/-- What is laid for all answers is laid for those that count. -/
theorem latest_resumable {opened external : Catalog}
    (laid : (project.site (rounds ++ [last])).Laid disk)
    (tells : (project.site (rounds ++ [last])).Tells disk opened)
    (filed : Site.Filed disk opened)
    (exports : (project.site (rounds ++ [last])).Exports external)
    (filedExternal : Site.Filed disk external) :
    (project.base (Latest rounds last opened) False (project.Arises (rounds ++ [last]))).Resumable
      disk := by
  have sourced : ∀ id text, Marked (fun record => record.source.isSome) opened id →
      (project.site (rounds ++ [last])).SourceText id text →
      (project.base (Latest rounds last opened) False
        (project.Arises (rounds ++ [last]))).SourceText id text := by
    intro id text marked expected
    unfold Site.SourceText at expected ⊢
    split at expected
    · next file isLast =>
      split
      · next twin isTwin => exact Option.some.inj (isLast.symm.trans isTwin) ▸ expected
      · next none => exact absurd (isLast.symm.trans none) (by simp)
    · next none =>
      split
      · next file isLast => exact absurd (none.symm.trans isLast) (by simp)
      · exact Or.inl ⟨marked, expected⟩
  have live : ∀ {piece id}, (project.base (Latest rounds last opened) False
      (project.Arises (rounds ++ [last]))).Live piece id →
      (project.site (rounds ++ [last])).Live piece id :=
    fun here => ⟨here.1, here.2, here.3, here.4⟩
  refine ⟨⟨laid.sound, laid.current, laid.sources, fun piece id here noLog stands =>
    laid.reached piece id (live here) noLog stands, fun piece id content here holds => ?_⟩,
    False.elim, opened, external, ⟨tells.path, tells.sorted, fun record member => ?_,
      fun id here stands => tells.parsed id (live here) stands,
      fun piece id isMade here stands => tells.made piece id isMade (live here) stands⟩, filed,
    ⟨exports.path, exports.sorted, exports.registers, exports.exported, exports.uncounted,
      exports.versions, False.elim⟩, filedExternal⟩
  · have permits := laid.permits piece id content (live here) holds
    cases piece with
    | parsed =>
      obtain ⟨source, text, expected, rest⟩ := permits
      have marked := tells.parsed id (live here) ⟨content, holds⟩
      exact ⟨source, text, sourced id source marked expected, rest⟩
    | step index => exact permits
    | optimized => exact permits
    | pulled => exact False.elim
    | log => exact False.elim
  · have fits := tells.records record member
    refine ⟨fits.involved, fits.placed, fits.ofProject, fits.ofStore, fun pulled content holds => ?_,
      fits.standing, fits.parsed, fits.optimized, fits.discovered, fits.seen, fits.status, fits.pinned⟩
    obtain ⟨text, same, answers⟩ := fits.answered pulled content holds
    have marked : Marked (fun record => record.source.isSome) opened record.id :=
      ⟨record, Catalog.find?_of_mem tells.sorted member, by simp [(fits.ofStore pulled).2]⟩
    exact ⟨text, same, Or.inl ⟨marked, answers⟩⟩

/-- What an assembly ends with for an object that it found or put in the store: its document is
the one of an answer of the store, and the optimized document is what passes make of it. -/
structure Served (project : Renewal) (rounds : List Round) (before after : Disk) (opened : Catalog)
    (record : Record) (text : String) : Prop where
  saved : ∃ answer, Answers rounds record.id answer ∧
    documentText project.settings project.parse record.id answer = .ok text
  document : ∃ path, record.xmir = some path ∧ after.readText path = .ok text ∧
    (Marked (fun record => record.xmir.isSome) opened record.id → before.readText path = .ok text)
  source : ∃ path current, record.source = some path ∧ after.readText path = .ok current ∧
    (¬Marked (fun record => record.source.isSome) opened record.id →
      documentText project.settings project.parse record.id current = .ok text)
  optimized : ∃ path made, record.optimized = some path ∧ after.readText path = .ok made ∧
    madeText project.settings Pass.all record.id text = .ok made

theorem overwriting_serves {before after : Workspace} {answer : Assembly}
    (firm : project.Firm (rounds ++ [last])) (history : project.History rounds before.disk)
    (hosts : project.Hosts last before.disk) (overwrites : last.settings.overwrite = true)
    (ran : (assemble last.settings (last.remote project.parse)).Yields before answer after) :
    ∃ opened, Catalog.openAt before.disk (catalogPath project.settings.target) = .ok opened ∧
      ∀ record ∈ after.foreign.records, record.pulled = true →
        ∃ text, project.Served (rounds ++ [last]) before.disk after.disk opened record text := by
  have earlier := firm.history (fun round member => List.mem_append_left _ member) history
  obtain ⟨foreign, external, _, ranForeign, ranExternal, _⟩ := yields_assemble_opened.1 ran
  rw [hosts.target] at ranForeign ranExternal
  have isFirm : ∀ {answers keeps}, (∀ id text, answers id text → Answers (rounds ++ [last]) id text) →
      (project.base answers keeps (project.Arises (rounds ++ [last]))).Firm :=
    fun fewer => firm.site _ fewer
  obtain ⟨opened, exported, tells, filed, exports, filedExternal⟩ := earlier.catalogs
  obtain ⟨rfl, rfl⟩ := Site.Resumable.opened (isFirm fun _ _ answered => answered) tells filed exports
    filedExternal ranForeign ranExternal
  refine ⟨foreign, ranForeign, ?_⟩
  have fewer : ∀ id text, Latest rounds last foreign id text → Answers (rounds ++ [last]) id text := by
    rintro id text (⟨_, answered⟩ | ⟨_, answered⟩)
    · exact answered
    · exact ⟨last, by simp, answered⟩
  have fresh := latest_resumable earlier.laid tells filed exports filedExternal
  obtain ⟨opened, sameDisk, isOpened, working, final, onward⟩ := fresh.yields (isFirm fewer)
    (hosts.suits (fun _ => overwrites) fun id text answered => by
      by_cases marked : Marked (fun record => record.source.isSome) foreign id
      · exact Or.inl ⟨marked, last, by simp, answered⟩
      · exact Or.inr ⟨marked, answered⟩) (fun never => never)
    (hosts.selects rfl fun never => never) False.elim ran
  have sameCatalog : opened.foreign = foreign := Except.ok.inj (isOpened.symm.trans ranForeign)
  intro record member pulled
  have fits := final.tells.records record member
  obtain ⟨isForeign, source⟩ := fits.ofStore pulled
  obtain ⟨parsed, optimized, discovered⟩ := (@settled_complete _ _ (fun _ => False) _ _ _ ran).1
    record member (by simp [source])
  obtain ⟨xmir, isXmir⟩ := Option.isSome_iff_exists.1 parsed
  obtain ⟨place, isPlace⟩ := Option.isSome_iff_exists.1 optimized
  obtain ⟨count, isCount⟩ := Option.isSome_iff_exists.1 discovered
  have atXmir := (fits.parsed xmir isXmir).1
  have atPlace := (fits.optimized place isPlace).1
  obtain ⟨_, made, _, holdsMade, _⟩ := fits.discovered count isCount
  have live := fits.live (by simp [source])
  have livePulled := fits.live_stored pulled .pulled rfl
  -- the optimized document is made of the document that stands
  obtain ⟨⟨text, result, holdsText, isMade, isResult⟩, _⟩ :=
    final.laid.permits _ _ _ live.optimized holdsMade
  rw [← FileContent.text.inj isResult] at isMade
  obtain ⟨saved, expected, isText⟩ := final.laid.document live holdsText
  have answered := (Site.sourceText_stored isForeign saved).1 expected
  obtain ⟨content, holdsSource⟩ := fits.standing pulled (Or.inr parsed)
  obtain ⟨current, rfl, answersCurrent⟩ := fits.answered pulled content holdsSource
  refine ⟨text, ⟨saved, fewer _ _ answered, isText⟩, ⟨xmir, isXmir, ?_, fun marked => ?_⟩,
    ⟨_, current, source, ?_, fun unmarked => ?_⟩, place, made, isPlace, ?_, isMade⟩
  · rw [atXmir]
    exact Disk.readText_eq_ok.2 (final.laid.found live (by simp) holdsText)
  · -- a document that was recorded stays
    have before := working.tells
    rw [sameCatalog] at before
    obtain ⟨old, found, isSome⟩ := marked
    have fitsOld := before.found found
    obtain ⟨path, isPath⟩ := Option.isSome_iff_exists.1 isSome
    obtain ⟨first, holdsFirst⟩ := (fitsOld.parsed path isPath).2.2
    rw [Catalog.id_of_find? found] at holdsFirst
    have later := onward.parsed _ _ live ⟨old, by rw [sameCatalog]; exact found, isSome⟩ holdsFirst
    rw [later.unique holdsText] at holdsFirst
    rw [atXmir, ← sameDisk]
    exact Disk.readText_eq_ok.2 (working.laid.found live (by simp) holdsFirst)
  · exact Disk.readText_eq_ok.2 (final.laid.found livePulled (by simp) holdsSource)
  · have same : saved = current := by
      rcases answered with ⟨marked, _⟩ | ⟨_, stored⟩
      · exact absurd marked unmarked
      · rcases answersCurrent with ⟨marked, _⟩ | ⟨_, storedCurrent⟩
        · exact absurd marked unmarked
        · exact Except.ok.inj (stored.symm.trans storedCurrent)
    rw [← same]
    exact isText
  · rw [atPlace]
    exact Disk.readText_eq_ok.2 (final.laid.found live.optimized (by simp) holdsMade)

end Renewal

/-! ## A source that changed -/

/-- The sample project, which is assembled again. -/
def renewedSample : Renewal where
  settings := sampleSettings
  start := sampleStart.disk
  files := [⟨["a.eo"]⟩]
  content _ := .text "<program><objects><o base=\x22b\x22/></objects></program>"
  parse _ text := .ok text

/-- The text of `b` that the store answers after it has changed. -/
def laterText : String := "<program name=\x22later\x22><objects/></program>"

/-- The first round, on the store of the sample project. -/
def earlierRound : Round where
  settings := sampleSettings
  store _ := .ok "<program><objects/></program>"
  table _ := .ok ""

/-- The second round, which overwrites sources. -/
def laterRound : Round where
  settings := { sampleSettings with overwrite := true }
  store _ := .ok laterText
  table _ := .ok ""

/-- What the second round does once its catalogs are open. -/
def laterSteps : Step (Nat × Nat × Nat) := do
  let registered ← register laterRound.settings
  let settled ← settle laterRound.settings (laterRound.remote renewedSample.parse)
    laterRound.settings.maxCycles
  pure (registered, settled)

/-- What the second round comes to, on the catalogs that the first one left. -/
def laterRun : Except Failure (Nat × Nat × Nat) × Workspace := laterSteps.perform sampleRun.2

/-- The rounds of the sample project. -/
def sampleRounds : List Round := [earlierRound] ++ [laterRound]

/-- The pieces of the objects of the sample project. -/
def sampleKeys : List (Piece × String) :=
  ["a", "org.eolang.b"].flatMap fun id =>
    ([Piece.parsed, .optimized, .pulled, .log] ++ (List.range Pass.all.length).map Piece.step).map
      fun piece => (piece, id)

theorem sample_answers {id text : String} (answers : Renewal.Answers sampleRounds id text) :
    text = "<program><objects/></program>" ∨ text = laterText := by
  obtain ⟨round, member, answer⟩ := answers
  simp only [sampleRounds, List.cons_append, List.nil_append, List.mem_cons, List.not_mem_nil,
    or_false] at member
  rcases member with rfl | rfl
  · exact Or.inl (Except.ok.inj answer).symm
  · exact Or.inr (Except.ok.inj answer).symm

/-- What the documents of the sample project refer to. -/
theorem sample_refers : ∀ item ∈ [("a", "<program><objects><o base=\x22b\x22/></objects></program>"),
      ("org.eolang.b", "<program><objects/></program>"), ("org.eolang.b", laterText)],
    ((documentText sampleSettings renewedSample.parse item.1 item.2).bind fun text =>
      (madeText sampleSettings Pass.all item.1 text).bind fun made =>
        namesOfText (optimizedPlace sampleSettings.target item.1) made) =
      .ok (if item.1 = "a" then ["org.eolang.b"] else []) := by
  decide +kernel

theorem sample_arises {id : String} (arises : renewedSample.Arises sampleRounds id) :
    id = "a" ∨ id = "org.eolang.b" := by
  induction arises with
  | root member =>
    rw [List.mem_singleton.1 member]
    exact Or.inl (by decide)
  | @refers id source text made name names before expected document optimized reads member
      inductionHypothesis =>
    have item : (id, source) ∈ [("a", "<program><objects><o base=\x22b\x22/></objects></program>"),
        ("org.eolang.b", "<program><objects/></program>"), ("org.eolang.b", laterText)] := by
      rcases inductionHypothesis with rfl | rfl
      · have last : lastNamed renewedSample.files "a" = some ⟨["a.eo"]⟩ := by decide
        rw [← FileContent.text.inj ((Site.sourceText_registered last source).1 expected)]
        exact List.mem_cons_self
      · have foreign : ¬(renewedSample.base (Renewal.Answers sampleRounds) True fun _ =>
            False).Registers "org.eolang.b" := by
          change "org.eolang.b" ∉ renewedSample.files.map idOf
          decide
        rcases sample_answers ((Site.sourceText_stored foreign source).1 expected) with rfl | rfl
        · simp
        · simp
    have known := sample_refers _ item
    change documentText sampleSettings renewedSample.parse id source = .ok text at document
    change madeText sampleSettings Pass.all id text = .ok made at optimized
    change namesOfText (optimizedPlace sampleSettings.target id) made = .ok names at reads
    simp only [document, optimized, reads, Except.bind, Except.ok.injEq] at known
    rw [known] at member
    split at member
    · exact Or.inr (List.mem_singleton.1 member)
    · exact absurd member (by simp)

theorem sample_keys {piece : Piece} {id : String}
    (live : (renewedSample.site sampleRounds).Live piece id) : (piece, id) ∈ sampleKeys := by
  have known : id ∈ ["a", "org.eolang.b"] := by
    rcases sample_arises live.involved with rfl | rfl <;> simp
  refine List.mem_flatMap.2 ⟨id, known, List.mem_map.2 ⟨piece, ?_, rfl⟩⟩
  cases piece with
  | step index => exact List.mem_append_right _ (List.mem_map_of_mem (List.mem_range.2
      (live.position index rfl)))
  | parsed => simp
  | optimized => simp
  | pulled => simp
  | log => simp

/-- The pieces of the sample project are apart from each other, from its source and from the
catalogs. -/
theorem sample_places :
    (∀ first ∈ sampleKeys, ∀ second ∈ sampleKeys, (first.1.place sampleSettings first.2).goal ["w"] =
      (second.1.place sampleSettings second.2).goal ["w"] → first = second) ∧
    ∀ key ∈ sampleKeys, (sampleSettings.sources.join ⟨["a.eo"]⟩).goal ["w"] ≠
        (key.1.place sampleSettings key.2).goal ["w"] ∧
      ∀ name ∈ catalogFiles, (key.1.place sampleSettings key.2).goal ["w"] ≠
        sampleSettings.target.goal ["w"] ++ [name] := by
  decide +kernel

theorem sample_firm : renewedSample.Firm sampleRounds where
  sound := Disk.sound_of_entries (by decide) (by decide)
  sources := by decide
  target := by decide
  named := by decide
  stand := by decide
  empty location below content stands := by
    have outside : ∀ item ∈ renewedSample.start.entries, ¬["w", "t"] <+: item.1 := by decide
    unfold Disk.entryAt? at stands
    split at stands
    · exact absurd stands (by simp)
    · obtain ⟨front, rest, split, _⟩ := List.lookup_eq_some_iff.1 stands
      exact outside (location, .file content) (by rw [split]; simp) below
  distinct piece id other twin live liveOther same := by
    exact Prod.mk.inj (sample_places.1 _ (sample_keys live) _ (sample_keys liveOther) same)
  aloof file member := by
    rw [List.mem_singleton.1 member]
    exact ⟨fun piece id live => (sample_places.2 _ (sample_keys live)).1, by decide⟩
  logs id live name known := by
    exact (sample_places.2 _ (sample_keys live)).2 name known

theorem hosts_earlier : renewedSample.Hosts earlierRound sampleStart.disk :=
  ⟨rfl, rfl, rfl, rfl, sample_references.1⟩

/-- What the first round leaves, and what the second one makes of it. -/
theorem sampleRounds_facts :
    (registeredFiles laterRound.settings sampleRun.2.disk = renewedSample.files ∧
      sampleRun.2.foreign.records.map Record.discovered = [some 1, some 0] ∧
      ∀ file ∈ catalogNames, sampleRun.2.disk.directoryAt
        ((renewedSample.site sampleRounds).catalogSpot file) = false) ∧
    (laterRun.1 = .ok (1, 2, 2) ∧ laterRun.2.foreign.size = 2) ∧
    (laterRun.2.foreign.find? "org.eolang.b").map (fun record =>
      (record.pulled, record.source, record.xmir)) =
        some (true, some (pulledPlace sampleSettings.target "org.eolang.b"),
          some (parsedPlace sampleSettings.target "org.eolang.b")) ∧
    laterRun.2.disk.readText (pulledPlace sampleSettings.target "org.eolang.b") = .ok laterText ∧
    laterRun.2.disk.readText (parsedPlace sampleSettings.target "org.eolang.b") =
      .ok "<program><objects/></program>" ∧
    documentText sampleSettings renewedSample.parse "org.eolang.b" laterText = .ok laterText := by
  decide +kernel

theorem hosts_later : renewedSample.Hosts laterRound sampleRun.2.disk :=
  ⟨rfl, rfl, rfl, rfl, sampleRounds_facts.1.1⟩

theorem ran_earlier : (assemble earlierRound.settings (earlierRound.remote renewedSample.parse)).Yields
    sampleStart ⟨1, 3, 1, 2⟩ sampleRun.2 := by
  have same : earlierRound.remote renewedSample.parse = sampleRemote := rfl
  rw [same]
  exact Step.yields_perform sampleRun_facts.1

theorem history_later : renewedSample.History [earlierRound] sampleRun.2.disk :=
  Renewal.History.next .start hosts_earlier ran_earlier

/-- The catalogs open as the first round left them. -/
theorem opened_later :
    Catalog.openAt sampleRun.2.disk (catalogPath sampleSettings.target) = .ok sampleRun.2.foreign ∧
      Catalog.openAt sampleRun.2.disk (sampleSettings.target.child Catalogs.externalFile) =
        .ok sampleRun.2.external := by
  have isFirm : (renewedSample.site sampleRounds).Firm := sample_firm.site True fun _ _ answered =>
    answered
  have suits : (renewedSample.site sampleRounds).Suits earlierRound.settings
      (earlierRound.remote renewedSample.parse) :=
    hosts_earlier.suits (fun never => absurd trivial never) fun id text answered =>
      ⟨earlierRound, List.mem_cons_self, answered⟩
  have selects : (renewedSample.site sampleRounds).Selects earlierRound.settings sampleStart.disk :=
    hosts_earlier.selects rfl fun never => never
  obtain ⟨_, _, _, _, working, _⟩ := Site.Resumable.yields isFirm suits (fun never => never)
    sample_firm.resumable selects False.elim ran_earlier
  obtain ⟨⟨_, counts, clear⟩, _⟩ := sampleRounds_facts
  refine Site.Working.reopens isFirm working (fun record member count counted => ?_) clear
  have among : record.discovered ∈ sampleRun.2.foreign.records.map Record.discovered :=
    List.mem_map_of_mem member
  rw [counts, Option.mem_def.1 counted] at among
  simp only [List.mem_cons, Option.some.injEq, List.not_mem_nil, or_false] at among
  rcases among with rfl | rfl
  · exact UInt64.toNat_lt 1
  · exact UInt64.toNat_lt 0

theorem ran_later :
    (assemble laterRound.settings (laterRound.remote renewedSample.parse)).Yields sampleRun.2
      ⟨1, 2, 2, 2⟩ laterRun.2 := by
  obtain ⟨_, ⟨outcome, size⟩, _⟩ := sampleRounds_facts
  have ran : laterSteps.Yields sampleRun.2 (1, 2, 2) laterRun.2 := Step.yields_perform outcome
  simp only [laterSteps, Step.yields_bind, Step.yields_pure] at ran
  obtain ⟨count, registered, ranRegister, settled, last, ranSettle, isAnswer, rfl⟩ := ran
  obtain ⟨rfl, rfl⟩ := Prod.mk.inj isAnswer
  have assembled : (assemble laterRound.settings (laterRound.remote renewedSample.parse)).Yields
      sampleRun.2 ⟨1, 2, 2, laterRun.2.foreign.size⟩ laterRun.2 :=
    assemble_opened opened_later.1 opened_later.2 ranRegister ranSettle
  rw [size] at assembled
  exact assembled

theorem sample_serves : renewedSample.Firm ([earlierRound] ++ [laterRound]) ∧
    renewedSample.History [earlierRound] sampleRun.2.disk ∧
    renewedSample.Hosts laterRound sampleRun.2.disk ∧ laterRound.settings.overwrite = true ∧
    (assemble laterRound.settings (laterRound.remote renewedSample.parse)).Yields sampleRun.2
      ⟨1, 2, 2, 2⟩ laterRun.2 ∧
    ∃ opened, Catalog.openAt sampleRun.2.disk (catalogPath sampleSettings.target) = .ok opened ∧
      ∀ record ∈ laterRun.2.foreign.records, record.pulled = true →
        ∃ text, renewedSample.Served ([earlierRound] ++ [laterRound]) sampleRun.2.disk
          laterRun.2.disk opened record text :=
  ⟨sample_firm, history_later, hosts_later, rfl, ran_later,
    Renewal.overwriting_serves sample_firm history_later hosts_later rfl ran_later⟩

/-- Overwriting doesn't refresh a document that is recorded: the source of `b` holds what the
store answers now, and its document is that of the text before. -/
theorem overwriting_keeps_document : renewedSample.Firm sampleRounds ∧
    renewedSample.History [earlierRound] sampleRun.2.disk ∧
    renewedSample.Hosts laterRound sampleRun.2.disk ∧ laterRound.settings.overwrite = true ∧
    (assemble laterRound.settings (laterRound.remote renewedSample.parse)).Yields sampleRun.2
      ⟨1, 2, 2, 2⟩ laterRun.2 ∧
    ∃ record ∈ laterRun.2.foreign.records, record.pulled = true ∧ ∃ source current xmir text document,
      record.source = some source ∧ laterRun.2.disk.readText source = .ok current ∧
      record.xmir = some xmir ∧ laterRun.2.disk.readText xmir = .ok text ∧
      documentText sampleSettings renewedSample.parse record.id current = .ok document ∧
      text ≠ document := by
  obtain ⟨_, _, fields, source, document, fresh⟩ := sampleRounds_facts
  refine ⟨sample_firm, history_later, hosts_later, rfl, ran_later, ?_⟩
  obtain ⟨record, found, same⟩ := Option.map_eq_some_iff.1 fields
  simp only [Prod.mk.injEq] at same
  rw [← Catalog.id_of_find? found] at fresh
  exact ⟨record, Catalog.mem_of_find? found, same.1, _, _, _, _, _, same.2.1, source, same.2.2,
    document, fresh, by decide⟩

end EoAssembly.Build
