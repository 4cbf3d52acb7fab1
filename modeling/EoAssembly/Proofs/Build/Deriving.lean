import EoAssembly.Proofs.Build.Advancing

/-!
Contract: optimizing and discovering keep the regime of a site.

The passes start from the recorded document, which stays as it is, and the optimized
document comes after the results of all passes.  One that is there already was made in the
same way.  The names in it may come up, and an object is discovered once all of them are
in the catalog.

Owns the traversal of these two stages.
-/

namespace EoAssembly.Build

namespace Site

variable {site : Site} {enrolled : Prop} {present : Workspace} {catalog : Catalog}
  {id name text : String} {path : Path} {record : Record} {document between : Document}

/-! ## Optimizing -/

/-- How far the passes have come on the document of an object: their results stand, and
nothing was made of the last one yet. -/
structure Midway (site : Site) (catalog : Catalog) (id text : String) (count : Nat)
    (present : Workspace) : Prop where
  same : present.foreign = catalog
  holds : site.Holds present.disk .parsed id (.text text)
  steps : ∀ index, index < count → site.Stands present.disk (.step index) id
  vacant : ¬site.Stands present.disk .optimized id

theorem stepName_eq {pass : Pass} {index : Nat} (isPass : Pass.all[index]? = some pass) :
    Piece.stepName index = Pass.stepFile index pass := by
  unfold Piece.stepName
  rw [isPass]
  rfl

theorem take_of_all {done rest : List Pass} {pass : Pass} (all : Pass.all = done ++ pass :: rest) :
    Pass.all.take (done.length + 1) = done ++ [pass] := by
  rw [all, List.append_cons, List.take_left' (by simp)]

/-- A recorded document stays as it is. -/
theorem stable_document (live : site.Live .parsed id) :
    (site.regime enrolled).Stable fun present =>
      Marked (fun record => record.xmir.isSome) present.foreign id ∧
        site.Holds present.disk .parsed id (.text text) := by
  rintro before after later ⟨marked, holds⟩
  exact ⟨marked.later Record.Within.xmir later.grows, later.parsed id _ live marked holds⟩

/-- Each object waits for its optimized document once. -/
theorem nodup_unoptimized (sorted : catalog.Sorted) :
    ((unoptimized catalog).map Prod.fst).Nodup := by
  refine sorted.nodup_ids.sublist ?_
  unfold unoptimized
  induction catalog.records with
  | nil => exact .slnil
  | cons record rest inductionHypothesis =>
    cases awaits : awaitsOptimize record with
    | none =>
      rw [List.filterMap_cons_none awaits]
      exact inductionHypothesis.cons _
    | some item =>
      rw [List.filterMap_cons_some awaits, List.map_cons, List.map_cons]
      have same : item.1 = record.id := by
        unfold awaitsOptimize at awaits
        split at awaits
        · obtain ⟨xmir, _, rfl⟩ := Option.map_eq_some_iff.1 awaits
          rfl
        · exact absurd awaits (by simp)
      rw [same]
      exact inductionHypothesis.cons_cons _

/-- Where the result of one pass more has a text, the pass applies to what the others made. -/
theorem apply_of_madeText {settings : Settings} {done : List Pass} {pass : Pass} {made : String}
    (reads : Document.ofText text (parsedPlace settings.target id).text = .ok document)
    (ran : Pass.runAll done document = .ok between)
    (isMade : madeText settings (done ++ [pass]) id text = .ok made) :
    ∃ next, pass.apply between = .ok next ∧ next.render = .ok made := by
  obtain ⟨other, next, readsOther, ranAll, renders⟩ := madeText_eq_ok.1 isMade
  rw [← Except.ok.inj (reads.symm.trans readsOther), runAll_concat ran] at ranAll
  exact ⟨next, ranAll, renders⟩

section Stages

variable (firm : site.Firm)

include firm

/-- The result of one pass more is saved. -/
theorem governs_step {done : List Pass} {pass : Pass} {rest : List Pass} {next : Document}
    (live : site.Live .parsed id) (marked : Marked (fun record => record.xmir.isSome) catalog id)
    (reads : Document.ofText text (site.place .parsed id).text = .ok document)
    (all : Pass.all = done ++ pass :: rest)
    (ranNext : Pass.runAll (done ++ [pass]) document = .ok next)
    (renders : site.flawless → ∃ made, next.render = .ok made) :
    (site.regime enrolled).Governs (site.Midway catalog id text done.length)
      (Step.save next
        ((stepsPlace site.settings.target id).child (Pass.stepFile done.length pass)))
      fun _ => site.Midway catalog id text (done.length + 1) := by
  have below : done.length < Pass.all.length := by rw [all]; simp
  have isStep : (stepsPlace site.settings.target id).child (Pass.stepFile done.length pass) =
      site.place (.step done.length) id := by
    rw [← stepName_eq (by rw [all]; simp)]
    rfl
  have stays : (site.regime enrolled).Stable fun present =>
      (Marked (fun record => record.xmir.isSome) present.foreign id ∧
        site.Holds present.disk .parsed id (.text text)) ∧
          ∀ index, index < done.length → site.Stands present.disk (.step index) id :=
    (stable_document live).and (.all fun index => .all fun before => fun _ _ later stands =>
      later.stands _ _ (live.step (Nat.lt_trans before below)) stands)
  rw [isStep]
  refine ((governs_save firm (fun foreign => foreign = catalog) (live.step below)
    next (fun other twin => other = .optimized ∧ twin = id) ?_ renders).keep
      stays).weaken (fun present _ midway => ?_) fun _ present _ told => ?_
  · rintro other twin ⟨rfl, rfl⟩
    exact ⟨live.optimized, fun same => absurd same.1 (by simp)⟩
  · have isMarked : Marked (fun record => record.xmir.isSome) present.foreign id := by
      rw [midway.same]
      exact marked
    refine ⟨⟨⟨fun made renders => ⟨⟨text, made, midway.holds, ?_, rfl⟩,
      fun wrong => absurd wrong (by simp), fun wrong => absurd wrong (by simp),
      fun wrong => absurd wrong (by simp), fun wrong => absurd wrong (by simp),
      fun _ => isMarked⟩, midway.same⟩, ?_⟩, ⟨isMarked, midway.holds⟩, midway.steps⟩
    · rw [take_of_all all]
      exact madeText_eq_ok.2 ⟨document, next, reads, ranNext, renders⟩
    · rintro other twin ⟨rfl, rfl⟩
      exact midway.vacant
  · obtain ⟨⟨⟨stands, same⟩, spared⟩, ⟨_, holds⟩, steps⟩ := told
    refine ⟨same, holds, fun index before => ?_, spared _ _ ⟨rfl, rfl⟩⟩
    rcases Nat.lt_succ_iff_lt_or_eq.1 before with earlier | last
    · exact steps index earlier
    · rw [last]
      exact stands

/-- Passes go on from what was made so far. -/
theorem governs_runPasses (live : site.Live .parsed id)
    (marked : Marked (fun record => record.xmir.isSome) catalog id)
    (reads : Document.ofText text (site.place .parsed id).text = .ok document)
    (able : site.flawless → ∀ index, index < Pass.all.length →
      ∃ made, madeText site.settings (Pass.all.take (index + 1)) id text = .ok made) :
    ∀ (passes done : List Pass) (between : Document), Pass.all = done ++ passes →
      Pass.runAll done document = .ok between →
      (site.regime enrolled).Governs (site.Midway catalog id text done.length)
        (runPasses (stepsPlace site.settings.target id) done.length passes between)
        fun result present => Pass.runAll Pass.all document = .ok result ∧
          site.Midway catalog id text Pass.all.length present := by
  intro passes
  induction passes with
  | nil =>
    intro done between all ran
    rw [List.append_nil] at all
    rw [← all] at ran ⊢
    exact .pure fun _ _ here => ⟨ran, here⟩
  | cons pass rest inductionHypothesis =>
    intro done between all ran
    have split : Pass.all = (done ++ [pass]) ++ rest := by rw [all, List.append_assoc]; rfl
    have below : done.length < Pass.all.length := by rw [all]; simp
    have ableHere : site.flawless →
        ∃ next, pass.apply between = .ok next ∧ ∃ made, next.render = .ok made := by
      intro flawless
      obtain ⟨made, isMade⟩ := able flawless done.length below
      rw [take_of_all all] at isMade
      obtain ⟨next, applies, renders⟩ := apply_of_madeText reads ran isMade
      exact ⟨next, applies, made, renders⟩
    unfold runPasses
    refine .bind (governs_outcome fun flawless _ _ _ => ?_) fun next =>
      .given (fun applies : pass.apply between = .ok next => ?_) fun _ _ here => here.1
    · obtain ⟨next, applies, _⟩ := ableHere flawless
      exact ⟨next, applies⟩
    have ranNext := (runAll_concat ran).trans applies
    have onward := inductionHypothesis (done ++ [pass]) next split ranNext
    rw [List.length_append, List.length_singleton] at onward
    refine .bind ((governs_step firm live marked reads all ranNext fun flawless => ?_).from_
      fun _ _ here => here.2) fun _ => onward
    obtain ⟨other, appliesOther, made, renders⟩ := ableHere flawless
    rw [Except.ok.inj (applies.symm.trans appliesOther)]
    exact ⟨made, renders⟩

/-- What all passes make of a document is written after their results. -/
theorem governs_refine (live : site.Live .parsed id)
    (marked : Marked (fun record => record.xmir.isSome) catalog id)
    (reads : Document.ofText text (site.place .parsed id).text = .ok document)
    (steps : site.flawless → ∀ index, index < Pass.all.length →
      ∃ made, madeText site.settings (Pass.all.take (index + 1)) id text = .ok made)
    (able : site.flawless → ∃ made, madeText site.settings Pass.all id text = .ok made) :
    (site.regime enrolled).Governs (site.Midway catalog id text 0)
      (do
        let optimized ← runPasses (stepsPlace site.settings.target id) 0 Pass.all document
        Step.save optimized (site.place .optimized id)
        pure (site.place .optimized id)) fun place present =>
          (place = site.place .optimized id ∧ site.Stands present.disk .optimized id) ∧
            present.foreign = catalog := by
  have passes : (site.regime enrolled).Governs _ _ _ :=
    governs_runPasses firm live marked reads steps Pass.all [] document rfl rfl
  rw [List.length_nil] at passes
  refine .bind passes fun result => .given (fun ran : Pass.runAll Pass.all document = .ok result =>
    ?_) fun _ _ told => told.1
  refine .bind ((governs_save firm (fun foreign => foreign = catalog) live.optimized
    result (fun _ _ => False) (fun _ _ never => never.elim) fun flawless => ?_).from_
      fun present _ told => ?_) fun _ => .pure fun present _ told => ⟨⟨rfl, told.1.1⟩, told.1.2⟩
  · obtain ⟨made, isMade⟩ := able flawless
    obtain ⟨twin, last, readsTwin, ranTwin, renders⟩ := madeText_eq_ok.1 isMade
    rw [← Except.ok.inj (reads.symm.trans readsTwin)] at ranTwin
    rw [Except.ok.inj (ran.symm.trans ranTwin)]
    exact ⟨made, renders⟩
  · obtain ⟨_, midway⟩ := told
    refine ⟨⟨fun made renders => ⟨⟨⟨text, made, midway.holds,
      madeText_eq_ok.2 ⟨document, result, reads, ran, renders⟩, rfl⟩, midway.steps⟩,
      fun wrong => absurd wrong (by simp), fun wrong => absurd wrong (by simp),
      fun _ => midway.vacant, fun wrong => absurd wrong (by simp), fun _ => ?_⟩, midway.same⟩,
      fun _ _ never => never.elim⟩
    rw [midway.same]
    exact marked

/-- The optimized document of an object is made of the recorded document. -/
theorem governs_optimizeDocument (found : catalog.find? id = some record)
    (parsed : record.xmir = some path) :
    (site.regime enrolled).Governs (fun present => present.foreign = catalog)
      (optimizeDocument site.settings.target id path) fun place present =>
        (place = site.place .optimized id ∧ (site.exact → site.Stands present.disk .optimized id)) ∧
          present.foreign = catalog := by
  refine .start fun start working here => ?_
  have foundHere : start.foreign.find? id = some record := by rw [here]; exact found
  have fits := working.tells.found foundHere
  have sameId := Catalog.id_of_find? found
  obtain ⟨isPlace, sourced, stands⟩ := fits.parsed path parsed
  have live : site.Live .parsed id := sameId ▸ fits.live sourced
  have marked : Marked (fun record => record.xmir.isSome) catalog id :=
    ⟨record, found, by simp [parsed]⟩
  rw [sameId] at isPlace stands
  obtain ⟨content, holds⟩ := stands
  obtain ⟨source, text, expected, isText, rfl⟩ := working.laid.permits _ _ _ live holds
  have entry : start.disk.entry? path = some (.file (.text text)) := by
    rw [isPlace]
    exact working.laid.found live (by simp) holds
  have able : site.flawless → (∀ index, index < Pass.all.length →
      ∃ made, madeText site.settings (Pass.all.take (index + 1)) id text = .ok made) ∧
        ∃ made, madeText site.settings Pass.all id text = .ok made := by
    intro flawless
    obtain ⟨other, same, steps, made, _, isMade, _⟩ :=
      (firm.able flawless).documents id source live.involved expected
    rw [← Except.ok.inj (isText.symm.trans same)] at steps isMade
    exact ⟨steps, made, isMade⟩
  unfold optimizeDocument
  refine .bind governs_look fun disk => .given (fun same : disk = start.disk => ?_)
    fun present _ told => by rw [told.1, told.2]
  subst same
  refine .ite (fun there => .pure fun present _ told => ?_) fun missing => ?_
  · obtain ⟨_, rfl⟩ := told
    exact ⟨⟨rfl, fun exact_ => working.file firm live.optimized exact_ there⟩, here⟩
  have vacant : ¬site.Stands start.disk .optimized id := by
    intro stands
    have there := working.laid.there live.optimized (by simp) stands
    exact missing there
  refine .bind (governs_load fun flawless present _ told => ?_) fun document =>
    .given (fun loads : Document.load start.disk path = .ok document => ?_) fun present _ told => ?_
  · obtain ⟨_, made, isMade⟩ := able flawless
    obtain ⟨document, _, reads, _⟩ := madeText_eq_ok.1 isMade
    rw [told.2]
    exact ⟨document, Document.load_eq_ok.2 ⟨text, entry, by rw [isPlace]; exact reads⟩⟩
  · obtain ⟨other, entryOther, reads⟩ := Document.load_eq_ok.1 loads
    rw [entry] at entryOther
    rw [← FileContent.text.inj (Entry.file.inj (Option.some.inj entryOther)), isPlace] at reads
    refine (governs_refine firm live marked reads (fun flawless => (able flawless).1)
      fun flawless => (able flawless).2).weaken (fun present _ told => ?_) fun _ _ _ told =>
        ⟨⟨told.1.1, fun _ => told.1.2⟩, told.2⟩
    obtain ⟨_, _, rfl⟩ := told
    exact ⟨here, holds, fun _ wrong => absurd wrong (by simp), vacant⟩
  · rw [← told.2.2]
    exact told.1

/-- An object waits for its optimized document. -/
def Unrefined (catalog : Catalog) (item : String × Path) : Prop :=
  ∃ record, catalog.find? item.1 = some record ∧ record.xmir = some item.2 ∧ record.optimized = none

theorem governs_optimizeEach (pending : List (String × Path)) :
    (∀ item ∈ pending, Unrefined catalog item) →
    (site.regime enrolled).Governs (fun present => present.foreign = catalog)
      (optimizeEach site.settings.target pending) fun done present =>
        (done.map Prod.fst = pending.map Prod.fst ∧ ∀ item ∈ done,
          item.2 = site.place .optimized item.1 ∧
            (site.exact → site.Stands present.disk .optimized item.1)) ∧
          present.foreign = catalog := by
  induction pending with
  | nil => exact fun _ => .pure fun _ _ here => ⟨⟨rfl, fun _ wrong => absurd wrong (by simp)⟩, here⟩
  | cons item rest inductionHypothesis =>
    intro waiting
    obtain ⟨record, found, parsed, _⟩ := waiting item List.mem_cons_self
    refine .start fun start working here => ?_
    have live : site.Live .optimized item.1 := by
      have fits := working.tells.found (here ▸ found)
      rw [← Catalog.id_of_find? found]
      exact (fits.live (fits.sourced_of_parsed (by simp [parsed]))).optimized
    refine .bind ((governs_optimizeDocument firm found parsed).from_ fun _ _ same => by
      rw [same]; exact here) fun place => .given (fun isPlace : place = site.place .optimized item.1 =>
        ?_) fun _ _ told => told.1.1
    have stays : (site.regime enrolled).Stable fun present =>
        site.exact → site.Stands present.disk .optimized item.1 := stable_stands fun _ => live
    refine .bind (((inductionHypothesis fun other member =>
      waiting other (List.mem_cons_of_mem item member)).keep stays).from_ fun _ _ told =>
        ⟨told.2, told.1.2⟩) fun others => .pure fun present _ told => ?_
    obtain ⟨⟨⟨ids, each⟩, same⟩, stands⟩ := told
    refine ⟨⟨by rw [List.map_cons, List.map_cons, ids], fun other member => ?_⟩, same⟩
    rcases List.mem_cons.1 member with isFirst | behind
    · rw [isFirst]
      exact ⟨isPlace, stands⟩
    · exact each other behind

theorem governs_recordOptimized (catalog : Catalog) (done : List (String × Path)) :
    (done.map Prod.fst).Nodup →
    (∀ item ∈ done, item.2 = site.place .optimized item.1 ∧ ∃ record,
      catalog.find? item.1 = some record ∧ record.xmir.isSome = true ∧ record.optimized = none) →
    (site.regime enrolled).Governs (fun present => ∀ item ∈ done,
        present.foreign.find? item.1 = catalog.find? item.1 ∧
          (site.exact → site.Stands present.disk .optimized item.1))
      (recordOptimized done) fun _ _ => True := by
  induction done with
  | nil => exact fun _ _ => .pure fun _ _ _ => trivial
  | cons item rest inductionHypothesis =>
    intro distinct waiting
    rw [List.map_cons] at distinct
    obtain ⟨fresh, distinctRest⟩ := List.nodup_cons.1 distinct
    refine .start fun start working here => ?_
    have stays : (site.regime enrolled).Stable fun present =>
        ∀ other, other ∈ rest → site.exact → site.Stands present.disk .optimized other.1 := by
      refine .all fun other => ?_
      intro before after later stands member exact_
      obtain ⟨_, record, found, parsed, _⟩ := waiting other (List.mem_cons_of_mem item member)
      have foundHere := (here other (List.mem_cons_of_mem item member)).1.trans found
      have fits := working.tells.found foundHere
      refine later.stands _ _ ?_ (stands member exact_)
      rw [← Catalog.id_of_find? found]
      exact (fits.live (fits.sourced_of_parsed parsed)).optimized
    refine .bind (((governs_update firm (fun _ => True) (fun twin => twin ∈ rest.map Prod.fst)
      catalog.find?).keep stays).from_ fun present _ same => ?_) fun _ =>
        (inductionHypothesis distinctRest fun other member =>
          waiting other (List.mem_cons_of_mem item member)).from_ fun present _ told other member =>
            ⟨told.1.2 other.1 (List.mem_map_of_mem member) fun same =>
              fresh (same ▸ List.mem_map_of_mem member), told.2 other member⟩
    rw [same]
    obtain ⟨isPlace, record, found, parsed, unoptimized⟩ := waiting item List.mem_cons_self
    obtain ⟨sameRecord, stands⟩ := here item List.mem_cons_self
    have foundHere := sameRecord.trans found
    have fits := working.tells.found foundHere
    have sameId := Catalog.id_of_find? found
    refine ⟨⟨⟨record, foundHere, trivial, ?_⟩, fun twin among _ => ?_⟩, fun other member => (here other
      (List.mem_cons_of_mem item member)).2⟩
    · rw [← sameId] at foundHere stands isPlace
      exact allowed_optimized fits foundHere isPlace parsed (fun _ => unoptimized) stands
    · obtain ⟨other, member, rfl⟩ := List.mem_map.1 among
      exact (here other (List.mem_cons_of_mem item member)).1

theorem governs_optimizeAll :
    (site.regime enrolled).Governs (fun _ => True) (optimizeAll site.settings.target)
      fun _ _ => True := by
  refine .start fun start working _ => ?_
  unfold optimizeAll optimizeThese
  refine .bind governs_look fun pending =>
    .given (fun same : pending = unoptimized start.foreign => ?_) fun present _ told => by
      rw [told.1, told.2]
  have waiting : ∀ item ∈ pending, Unrefined start.foreign item := by
    intro item member
    rw [same] at member
    obtain ⟨record, among, awaits⟩ := List.mem_filterMap.1 member
    unfold awaitsOptimize at awaits
    split at awaits
    · next waits =>
      obtain ⟨xmir, isParsed, rfl⟩ := Option.map_eq_some_iff.1 awaits
      exact ⟨record, Catalog.find?_of_mem working.tells.sorted among, isParsed,
        Option.isNone_iff_eq_none.1 waits⟩
    · exact absurd awaits (by simp)
  have distinct : (pending.map Prod.fst).Nodup := by
    rw [same]
    exact nodup_unoptimized working.tells.sorted
  refine .bind ((governs_optimizeEach firm pending waiting).from_ fun present _ told => by
    rw [told.2]) fun done => .given (fun ids : done.map Prod.fst = pending.map Prod.fst => ?_)
      fun _ _ told => told.1.1
  refine .bind (.given (fun known : ∀ item ∈ done, item.2 = site.place .optimized item.1 =>
    (governs_recordOptimized firm start.foreign done (ids ▸ distinct)
      fun item member => ⟨known item member, ?_⟩).from_ fun present _ told item member =>
        ⟨by rw [told.2], (told.1.2 item member).2⟩) fun _ _ told item member =>
          (told.1.2 item member).1) fun _ => .pure fun _ _ _ => trivial
  have among : item.1 ∈ pending.map Prod.fst := ids ▸ List.mem_map_of_mem member
  obtain ⟨other, memberOther, isOther⟩ := List.mem_map.1 among
  obtain ⟨record, found, parsed, unoptimized⟩ := waiting other memberOther
  rw [isOther] at found
  exact ⟨record, found, by simp [parsed], unoptimized⟩

/-! ## Discovering -/

theorem governs_discoverName (involved : site.involved name)
    (seen : ∃ id, path = site.place .optimized id) :
    (site.regime enrolled).Governs (fun _ => True) (discoverName path name) fun _ present =>
      ∃ record, present.foreign.find? name = some record := by
  have update : (site.regime enrolled).Governs
      (fun present => ∃ record, present.foreign.find? name = some record)
      (Step.updateForeign name (asSeenIn path)) fun _ present =>
        ∃ record, present.foreign.find? name = some record := by
    refine ((governs_update firm (fun _ => True) (fun _ => False) fun _ => none).weaken
      (fun present working here => ?_) fun record _ _ told => ⟨record, told.1.1⟩)
    obtain ⟨record, found⟩ := here
    have fits := working.tells.found found
    refine ⟨⟨record, found, trivial, ?_⟩, fun _ never => never.elim⟩
    rw [← Catalog.id_of_find? found] at found
    exact allowed_seenIn fits found seen
  have finish : ∀ known : Bool, (site.regime enrolled).Governs
      (fun present => ∃ record, present.foreign.find? name = some record)
      (do
        let _ ← Step.updateForeign name (asSeenIn path)
        pure (if known then 0 else 1) : Step Nat) fun _ present =>
          ∃ record, present.foreign.find? name = some record :=
    fun known => .bind update fun _ => .pure fun _ _ here => here
  unfold discoverName
  refine .bind governs_look fun known => ?_
  cases known with
  | true =>
    refine (finish true).from_ fun present _ here => ?_
    exact Option.isSome_iff_exists.1 here.1.symm
  | false =>
    exact .bind ((governs_add firm involved (fun _ => True) trivial).weaken
      (fun _ _ _ _ _ => trivial) fun record _ _ told => ⟨record, told.1⟩) fun _ => finish false

theorem governs_discoverNames (seen : ∃ id, path = site.place .optimized id) (names : List String) :
    (∀ name ∈ names, site.involved name) →
    (site.regime enrolled).Governs (fun _ => True) (discoverNames path names) fun _ present =>
      ∀ name ∈ names, ∃ record, present.foreign.find? name = some record := by
  induction names with
  | nil => exact fun _ => .pure fun _ _ _ _ wrong => absurd wrong (by simp)
  | cons name rest inductionHypothesis =>
    intro involved
    refine .bind (governs_discoverName firm (involved name List.mem_cons_self) seen) fun _ =>
      .bind (((inductionHypothesis fun other member =>
        involved other (List.mem_cons_of_mem name member)).keep stable_known).from_
          fun _ _ here => ⟨trivial, here⟩) fun _ => .pure fun present _ told other member => ?_
    rcases List.mem_cons.1 member with same | behind
    · rw [same]
      exact told.2
    · exact told.1 other behind

theorem governs_discoverObject (record : Record)
    (live : record.optimized.isSome = true → site.Live .optimized record.id)
    (place : ∀ path ∈ record.optimized, path = site.place .optimized record.id) :
    (site.regime enrolled).Governs
      (fun present => record.optimized.isSome = true →
        Marked (fun record => record.optimized.isSome) present.foreign record.id)
      (discoverObject record) fun _ _ => True := by
  unfold discoverObject
  split
  · exact .pure fun _ _ _ => trivial
  · next path isPath =>
    have isPlace := place path isPath
    have isLive := live (by simp [isPath])
    refine .start fun start working here => ?_
    have optimized := here (by simp [isPath])
    refine .bind governs_look fun disk => .given (fun same : disk = start.disk => ?_)
      fun present _ told => by rw [told.1, told.2]
    refine .bind (governs_outcome fun flawless _ _ _ => ?_) fun names =>
      .given (fun reads : namesIn disk path = .ok names => ?_) fun _ _ told => told.1
    · obtain ⟨old, found, isSome⟩ := optimized
      have fits := working.tells.found found
      have sameId := Catalog.id_of_find? found
      obtain ⟨other, isOther⟩ := Option.isSome_iff_exists.1 isSome
      obtain ⟨content, holds⟩ := (fits.optimized other isOther).2.2 (firm.able flawless).exact
      rw [sameId] at holds
      obtain ⟨⟨parsed, made, holdsParsed, isMade, rfl⟩, _⟩ := working.laid.permits _ _ _ isLive holds
      obtain ⟨source, expected, isText⟩ := working.laid.document isLive.parsed holdsParsed
      obtain ⟨twin, sameText, _, result, names, isResult, readsResult⟩ :=
        (firm.able flawless).documents record.id source isLive.involved expected
      rw [← Except.ok.inj (isText.symm.trans sameText)] at isResult
      rw [← Except.ok.inj (isMade.symm.trans isResult)] at readsResult
      refine ⟨names, namesIn_eq_ok.2 ⟨made, ?_, by rw [isPlace]; exact readsResult⟩⟩
      rw [same, isPlace]
      exact working.laid.found isLive (by simp) holds
    · obtain ⟨text, entry, readsText⟩ := namesIn_eq_ok.1 reads
      rw [same, isPlace] at entry
      rw [isPlace] at readsText
      have holds := working.laid.holds entry
      have stays : (site.regime enrolled).Stable fun present =>
          Marked (fun record => record.optimized.isSome) present.foreign record.id ∧
            site.Holds present.disk .optimized record.id (.text text) := by
        rintro before after later ⟨isMarked, holdsBefore⟩
        exact ⟨isMarked.later Record.Within.optimized later.grows,
          later.optimized _ _ isLive holdsBefore⟩
      refine .bind (((governs_discoverNames firm ⟨record.id, isPlace⟩ names
        (working.laid.involves firm isLive.parsed holds readsText)).keep stays).from_
          fun present _ told => ?_) fun _ => .bind ((governs_change firm).from_
            fun present working told => ?_) fun _ => .pure fun _ _ _ => trivial
      · obtain ⟨_, _, rfl⟩ := told
        exact ⟨trivial, optimized, holds⟩
      · obtain ⟨known, ⟨old, found, isSome⟩, holdsHere⟩ := told
        have fits := working.tells.found found
        have sameId := Catalog.id_of_find? found
        refine ⟨old, found, ?_⟩
        rw [← sameId] at found holdsHere readsText
        exact allowed_discovered fits found isSome holdsHere readsText known

theorem governs_discoverAll :
    (site.regime enrolled).Governs (fun _ => True) discoverAll fun _ _ => True := by
  refine .start fun start working _ => ?_
  have each : ∀ records : List Record, (∀ record ∈ records, record ∈ start.foreign.records) →
      (site.regime enrolled).Governs
        (fun present => start.foreign.Grows present.foreign) (discoverEach records)
        fun _ _ => True := by
    intro records
    induction records with
    | nil => exact fun _ => .pure fun _ _ _ => trivial
    | cons record rest inductionHypothesis =>
      intro among
      have member := among record List.mem_cons_self
      have fits := working.tells.records record member
      have found := Catalog.find?_of_mem working.tells.sorted member
      have grows : (site.regime enrolled).Stable fun present =>
          start.foreign.Grows present.foreign :=
        fun _ _ later grows => grows.trans later.grows
      refine .bind (((governs_discoverObject firm record (fun optimized =>
        (fits.live (fits.sourced_of_parsed (fits.parsed_of_optimized optimized))).optimized)
          fun path isPath => (fits.optimized path isPath).1).keep grows).from_ fun present _ here =>
            ⟨fun optimized => ?_, here⟩) fun _ => .bind ((inductionHypothesis fun other behind =>
              among other (List.mem_cons_of_mem record behind)).from_ fun _ _ told => told.2)
                fun _ => .pure fun _ _ _ => trivial
      exact Marked.later Record.Within.optimized here ⟨record, found, optimized⟩
  unfold discoverAll
  refine .bind governs_look fun pending =>
    .given (fun same : pending = start.foreign.notDiscovered => ?_) fun present _ told => by
      rw [told.1, told.2]
  refine (each pending fun record member => ?_).from_ fun present _ told => by
    rw [told.2]
    exact .refl _
  rw [same] at member
  exact (List.mem_filter.1 member).1

end Stages

end Site

end EoAssembly.Build
