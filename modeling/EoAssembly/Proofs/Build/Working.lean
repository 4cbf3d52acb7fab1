import EoAssembly.Proofs.Build.Changing
import EoAssembly.Proofs.Build.Writable

/-!
Contract: every stage leaves a steady workspace steady.

What a stage knows when it starts, later steps keep: an object that has a source keeps
one, a file that was written is there, the names in an optimized document stay.  So every
change that a stage makes is allowed, and every file that it writes is beside the
catalogs, whatever else the build did in between.

Owns the traversal of the stages in the regime of builds.
-/

namespace EoAssembly.Build

open ObjectName (Placeable Storable checkPlace placeable_of_checkPlace)
open Path (IsName)

variable {grounds : Grounds} {settings : Settings} {remote : Remote} {id : String} {path : Path}

/-! ## What later steps keep -/

section Stable

theorem stable_marked {mark : Record → Bool}
    (lasting : ∀ {old new : Record}, old.Within new → mark old = true → mark new = true) :
    grounds.regime.Stable fun present => Marked mark present.foreign id :=
  fun _ _ later marked => marked.later lasting later.2

theorem stable_lasting : grounds.regime.Stable fun present => grounds.Lasting present.disk path :=
  fun _ _ later lasting => later.1.lasting lasting

theorem stable_names (placeable : grounds.strict → Placeable id) {names : List String} :
    grounds.regime.Stable fun present => grounds.strict →
      namesIn present.disk (optimizedPlace grounds.target id) = .ok names :=
  fun _ _ later reads strict => later.1.names strict (placeable strict) (reads strict)

theorem stable_known : grounds.regime.Stable fun present =>
    ∃ record, present.foreign.find? id = some record := by
  rintro before after ⟨_, grows⟩ ⟨record, found⟩
  obtain ⟨later, foundLater, _⟩ := grows id record found
  exact ⟨later, foundLater⟩

theorem stable_referred : grounds.regime.Stable fun present =>
    grounds.strict → Referred grounds present.disk present.foreign id :=
  fun _ _ later referred strict => (referred strict).later strict later.1 later.2

end Stable

/-- A step that changes neither the disk nor a catalog. -/
theorem governs_silent {α : Type} {step : Step α}
    (silent : ∀ before, (step.perform before).2.disk = before.disk ∧
      (step.perform before).2.foreign = before.foreign ∧
        (step.perform before).2.external = before.external) :
    grounds.regime.Governs (fun _ => True) step fun _ _ => True := by
  refine Regime.governs_of_ends fun before holds _ outcome after ran => ?_
  obtain ⟨disk, foreign, external⟩ := silent before
  rw [ran] at disk foreign external
  simp only at disk foreign external
  obtain ⟨⟨grounded, upheld, path, stored⟩, saved⟩ := holds
  have still : grounds.regime.holds after := by
    refine ⟨⟨?_, ?_, ?_, ?_⟩, fun saving => ?_⟩
    · rw [disk]
      exact grounded
    · rw [disk, foreign]
      exact upheld
    · rw [external]
      exact path
    · rw [disk]
      exact stored
    · obtain ⟨here, there, sorted, exported⟩ := saved saving
      exact ⟨by rw [disk, foreign]; exact here, by rw [disk, external]; exact there,
        by rw [external]; exact sorted, by rw [external]; exact exported⟩
  cases outcome with
  | error failure => exact stops_of_holds still
  | ok value =>
    refine ⟨still, ⟨?_, ?_⟩, trivial⟩
    · rw [disk]
      exact .refl _
    · rw [foreign]
      exact .refl _

theorem governs_parse {source : String} :
    grounds.regime.Governs (fun _ => True) (Step.parse remote id source) fun _ _ => True :=
  governs_silent fun _ => ⟨rfl, rfl, rfl⟩

theorem governs_table :
    grounds.regime.Governs (fun _ => True) (Step.table remote) fun _ _ => True :=
  governs_silent fun _ => ⟨rfl, rfl, rfl⟩

section Plain

variable {α : Type} {pre : Workspace → Prop}

/-- Looking at a workspace tells what it shows. -/
theorem governs_look {view : Workspace → α} :
    grounds.regime.Governs pre (Step.look view) fun seen present => seen = view present ∧ pre present :=
  .look fun _ _ here => ⟨rfl, here⟩

/-- An outcome that was computed changes nothing. -/
theorem governs_outcome {outcome : Except Failure α} :
    grounds.regime.Governs pre (Step.ofOutcome outcome) fun value present =>
      outcome = .ok value ∧ pre present :=
  .ofOutcome (fun _ same _ _ here => ⟨same, here⟩) fun _ _ _ holds _ => stops_of_holds holds

theorem governs_load : grounds.regime.Governs pre (Step.load path) fun _ present => pre present :=
  .load (fun _ _ here _ _ => here) fun _ holds _ _ _ => stops_of_holds holds

end Plain

/-- Settings of a build on the grounds. -/
structure Grounds.Suits (grounds : Grounds) (settings : Settings) : Prop where
  sources : settings.sources = grounds.sources
  target : settings.target = grounds.target
  protocols : settings.protocols = grounds.protocols
  strict : grounds.strict → settings.strictNames = true

/-- Where no optimized document of a parsed object can be found, no file stands. -/
theorem vacant_of_missing {present : Workspace} (holds : grounds.regime.holds present)
    (marked : Marked (fun record => record.xmir.isSome) present.foreign id)
    (placeable : Placeable id)
    (missing : present.disk.exists? (optimizedPlace grounds.target id) = false) :
    Grounds.Vacant present.disk ((optimizedPlace grounds.target id).goal grounds.current) := by
  obtain ⟨record, found, parsed⟩ := marked
  obtain ⟨xmir, isXmir⟩ := Option.isSome_iff_exists.1 parsed
  obtain ⟨⟨_, there⟩, place⟩ := (holds.1.foreign.found found).xmir xmir isXmir
  rw [Catalog.id_of_find? found] at place
  have left : ∀ current, (optimizedPlace grounds.target id).left current = xmir.left current := by
    intro current
    rw [place]
    unfold optimizedPlace parsedPlace
    rw [Path.left_of_names current (components_stage isName_optimized isExtension_document placeable _),
      Path.left_of_names current (components_stage isName_parsed isExtension_document placeable _)]
  have passable : present.disk.Passable (optimizedPlace grounds.target id) := by
    obtain ⟨entry, stands⟩ := Disk.exists?_iff.1 there
    have passableXmir := (Disk.entry_eq_some stands).2.1
    unfold Disk.Passable at passableXmir ⊢
    rw [left]
    exact passableXmir
  rw [Disk.not_exists?_iff,
    Disk.entry_of_name (Grounds.endsInName_optimizedPlace placeable grounds.target) passable,
    holds.1.grounded.current] at missing
  intro content
  rw [missing]
  simp

/-- An object that waits for its optimized form has a document. -/
theorem marked_of_pending {catalog : Catalog} (sorted : catalog.Sorted) {item : String × Path}
    (pending : item ∈ unoptimized catalog) :
    Marked (fun record => record.xmir.isSome) catalog item.1 := by
  obtain ⟨record, among, awaits⟩ := List.mem_filterMap.1 pending
  unfold awaitsOptimize at awaits
  split at awaits
  · obtain ⟨xmir, isXmir, same⟩ := Option.map_eq_some_iff.1 awaits
    rw [← same]
    exact ⟨record, Catalog.find?_of_mem sorted among, by simp [isXmir]⟩
  · exact absurd awaits (by simp)

section Stages

variable (firm : grounds.Firm)

include firm

/-- Writing a document where no optimized document is. -/
theorem governs_save_plain (document : Document) (beside : Beside grounds path)
    (unread : ∀ disk, Unread grounds path disk) :
    grounds.regime.Governs (fun _ => True) (Step.save document path) fun _ present =>
      present.disk.exists? path = true := by
  refine (governs_save firm beside document (fun _ => False) not_false).weaken (fun present _ _ => ?_)
    fun _ _ _ told => told.1
  exact ⟨unread present.disk, fun _ spared => spared.elim⟩

theorem governs_write_plain (text : String) (beside : Beside grounds path)
    (unread : ∀ disk, Unread grounds path disk) :
    grounds.regime.Governs (fun _ => True) (Step.write path text) fun _ present =>
      present.disk.exists? path = true := by
  refine (governs_write firm beside text (fun _ => False) not_false).weaken (fun present _ _ => ?_)
    fun _ _ _ told => told.1
  exact ⟨unread present.disk, fun _ spared => spared.elim⟩

/-! ## Parsing -/

theorem governs_parseObject (suits : grounds.Suits settings) :
    grounds.regime.Governs (fun _ => True) (parseObject settings remote id) fun _ _ => True := by
  unfold parseObject
  rw [suits.target]
  refine .bind governs_look fun seen => ?_
  have sourced : grounds.regime.Governs (fun present => seen = present ∧ True)
      (Step.ofOutcome (sourceOf seen.foreign id)) fun _ present =>
        (Storable id ∧ (grounds.strict → Placeable id)) ∧
          Marked (fun record => record.source.isSome) present.foreign id := by
    refine governs_outcome.telling fun source present holds here => ?_
    obtain ⟨isSource, rfl, _⟩ := here
    obtain ⟨record, found, isSome⟩ := sourceOf_eq_ok.1 isSource
    have some_ : record.source.isSome = true := by simp [isSome]
    have borne := holds.1.foreign.found found
    rw [← Catalog.id_of_find? found]
    exact ⟨⟨borne.storable some_, fun strict => borne.placeable strict some_⟩, record,
      by rw [Catalog.id_of_find? found]; exact found, some_⟩
  refine .bind sourced fun source => .given (fun known => ?_) fun _ _ here => here.1
  obtain ⟨storable, placeable⟩ := known
  have marked : grounds.regime.Stable fun present =>
      Marked (fun record => record.source.isSome) present.foreign id :=
    stable_marked Record.Within.source
  refine .bind (governs_outcome.telling fun _ _ _ here => here.2.2) fun text => ?_
  refine .bind (governs_parse.keeping marked) fun made => ?_
  refine .bind (governs_outcome.telling fun _ _ _ here => here.2) fun document => ?_
  have saved := (governs_save_plain firm document (beside_parsed firm storable placeable)
    fun _ => unread_parsed placeable).keep marked
  refine .bind (saved.from_ fun _ _ here => ⟨trivial, here⟩) fun _ => ?_
  refine .bind ((governs_change firm).from_ fun present holds here => ?_) fun _ => .pure fun _ _ _ =>
    trivial
  obtain ⟨there, record, found, sourced⟩ := here
  have safe := Grounds.safe_inside firm
    (inside_parsedPlace storable grounds.target grounds.current)
  have sameId := Catalog.id_of_find? found
  rw [← sameId] at there safe found ⊢
  exact ⟨record, found, allowed_parsed (holds.1.foreign.found found) found rfl ⟨safe, there⟩ sourced⟩

theorem governs_parseAll (suits : grounds.Suits settings) :
    grounds.regime.Governs (fun _ => True) (parseAll settings remote) fun _ _ => True := by
  have each : ∀ ids, grounds.regime.Governs (fun _ => True) (parseEach settings remote ids)
      fun _ _ => True := by
    intro ids
    induction ids with
    | nil => exact .pure fun _ _ _ => trivial
    | cons id rest inductionHypothesis =>
      exact .bind (governs_parseObject firm suits) fun _ => inductionHypothesis
  refine .bind governs_look fun pending => ?_
  exact .bind ((each pending).from_ fun _ _ _ => trivial) fun _ => .pure fun _ _ _ => trivial

/-! ## Optimizing -/

theorem governs_runPasses (storable : Storable id) (placeable : grounds.strict → Placeable id)
    (passes : List Pass) (index : Nat) (document : Document)
    (steps : ∀ item ∈ passes.zipIdx index, IsStep (Pass.stepFile item.2 item.1) ∧
      Pass.stepFile item.2 item.1 ∉ catalogFiles) :
    grounds.regime.Governs
      (fun present => grounds.strict →
        Grounds.Vacant present.disk ((optimizedPlace grounds.target id).goal grounds.current))
      (runPasses (stepsPlace grounds.target id) index passes document) fun _ present =>
        grounds.strict →
          Grounds.Vacant present.disk ((optimizedPlace grounds.target id).goal grounds.current) := by
  induction passes generalizing index document with
  | nil => exact .pure fun _ _ here => here
  | cons pass rest inductionHypothesis =>
    obtain ⟨isStep, noCatalog⟩ := steps (pass, index) (by simp)
    refine .bind (governs_outcome.telling fun _ _ _ here => here.2) fun next => ?_
    have apart : ∀ twin, Placeable twin → grounds.strict →
        ((stepsPlace grounds.target id).child (Pass.stepFile index pass)).goal grounds.current ≠
          (optimizedPlace grounds.target twin).goal grounds.current :=
      fun twin placeableTwin strict =>
        step_ne_optimized (placeable strict) isStep placeableTwin grounds.target grounds.current
    have saved := governs_save firm (beside_step firm storable isStep.plain noCatalog) next
      (fun location => grounds.strict ∧
        location = (optimizedPlace grounds.target id).goal grounds.current)
      fun spared => apart id (placeable spared.1) spared.1 spared.2
    refine .bind (saved.weaken (fun present _ here => ⟨fun strict twin placeableTwin same => ?_,
      fun location spared => ?_⟩) fun _ present _ told strict => told.2 _ ⟨strict, rfl⟩) fun _ => ?_
    · exact absurd same.symm (apart twin placeableTwin strict)
    · rw [spared.2]
      exact here spared.1
    · refine inductionHypothesis (index + 1) next fun item member => steps item ?_
      rw [List.zipIdx_cons]
      exact List.mem_cons_of_mem _ member

theorem governs_optimizeDocument (xmir : Path) :
    grounds.regime.Governs
      (fun present => Marked (fun record => record.xmir.isSome) present.foreign id)
      (optimizeDocument grounds.target id xmir) fun place present =>
        place = optimizedPlace grounds.target id ∧ grounds.Lasting present.disk place := by
  refine .given (fun known : Storable id ∧ (grounds.strict → Placeable id) => ?_)
    fun present holds here => ?_
  · obtain ⟨storable, placeable⟩ := known
    have safe := Grounds.safe_inside firm
      (inside_optimizedPlace storable grounds.target grounds.current)
    unfold optimizeDocument
    refine .bind governs_look fun disk => .ite (fun there => ?_) fun missing => ?_
    · refine .pure fun present _ here => ⟨rfl, safe, ?_⟩
      rw [← here.1]
      exact there
    · have vacant : ∀ present, grounds.regime.holds present →
          disk = present.disk ∧ Marked (fun record => record.xmir.isSome) present.foreign id →
          grounds.strict → Grounds.Vacant present.disk
            ((optimizedPlace grounds.target id).goal grounds.current) := by
        intro present holds here strict
        rw [here.1, Bool.not_eq_true] at missing
        exact vacant_of_missing holds here.2 (placeable strict) missing
      refine .bind (governs_load.from_ vacant) fun document => ?_
      refine .bind (governs_runPasses firm storable placeable Pass.all 0 document fun item member =>
        ⟨isStep_all item member, (stepFiles_plain item member).2⟩) fun optimized => ?_
      have saved := governs_save firm (beside_optimized firm storable placeable) optimized
        (fun _ => False) not_false
      refine .bind (saved.from_ fun present _ spare => ⟨fun strict _ _ _ => spare strict,
        fun _ never => never.elim⟩) fun _ => ?_
      exact .pure fun present _ here => ⟨rfl, safe, here.1⟩
  · obtain ⟨record, found, parsed⟩ := here
    have borne := holds.1.foreign.found found
    have sourced := borne.parsed parsed
    rw [← Catalog.id_of_find? found]
    exact ⟨borne.storable sourced, fun strict => borne.placeable strict sourced⟩

theorem governs_optimizeEach (pending : List (String × Path)) :
    grounds.regime.Governs
      (fun present => ∀ item ∈ pending,
        Marked (fun record => record.xmir.isSome) present.foreign item.1)
      (optimizeEach grounds.target pending) fun done present => ∀ item ∈ done,
        Marked (fun record => record.xmir.isSome) present.foreign item.1 ∧
          item.2 = optimizedPlace grounds.target item.1 ∧ grounds.Lasting present.disk item.2 := by
  induction pending with
  | nil => exact .pure fun _ _ _ item member => absurd member (by simp)
  | cons first rest inductionHypothesis =>
    obtain ⟨id, xmir⟩ := first
    have marked : grounds.regime.Stable fun present => ∀ item ∈ (id, xmir) :: rest,
        Marked (fun record => record.xmir.isSome) present.foreign item.1 :=
      .all fun item => .all fun _ => stable_marked Record.Within.xmir
    refine .bind (((governs_optimizeDocument firm xmir).keep marked).from_ fun _ _ here =>
      ⟨here (id, xmir) List.mem_cons_self, here⟩) fun place => ?_
    have done : grounds.regime.Stable fun present =>
        (place = optimizedPlace grounds.target id ∧ grounds.Lasting present.disk place) ∧
          Marked (fun record => record.xmir.isSome) present.foreign id :=
      ((Regime.stable_const _).and stable_lasting).and (stable_marked Record.Within.xmir)
    refine .bind ((inductionHypothesis.keep done).from_ fun _ _ here =>
      ⟨fun item member => here.2 item (List.mem_cons_of_mem _ member),
        here.1, here.2 (id, xmir) List.mem_cons_self⟩) fun others => ?_
    refine .pure fun present _ here item member => ?_
    rcases List.mem_cons.1 member with same | later
    · rw [same]
      exact ⟨here.2.2, here.2.1⟩
    · exact here.1 item later

theorem governs_recordOptimized (done : List (String × Path)) :
    grounds.regime.Governs
      (fun present => ∀ item ∈ done,
        Marked (fun record => record.xmir.isSome) present.foreign item.1 ∧
          item.2 = optimizedPlace grounds.target item.1 ∧ grounds.Lasting present.disk item.2)
      (recordOptimized done) fun _ _ => True := by
  induction done with
  | nil => exact .pure fun _ _ _ => trivial
  | cons first rest inductionHypothesis =>
    obtain ⟨id, place⟩ := first
    have stable : grounds.regime.Stable fun present => ∀ item ∈ (id, place) :: rest,
        Marked (fun record => record.xmir.isSome) present.foreign item.1 ∧
          item.2 = optimizedPlace grounds.target item.1 ∧ grounds.Lasting present.disk item.2 :=
      .all fun item => .all fun _ =>
        (stable_marked Record.Within.xmir).and ((Regime.stable_const _).and stable_lasting)
    refine .bind (((governs_change firm).keep stable).from_ fun present holds here => ⟨?_, here⟩)
      fun _ => inductionHypothesis.from_ fun _ _ here item member =>
        here.2 item (List.mem_cons_of_mem _ member)
    obtain ⟨⟨record, found, parsed⟩, isPlace, lasting⟩ := here (id, place) List.mem_cons_self
    have sameId := Catalog.id_of_find? found
    refine ⟨record, found, ?_⟩
    rw [← sameId] at found
    exact allowed_optimized (holds.1.foreign.found found) found (by rw [sameId]; exact isPlace)
      lasting parsed

theorem governs_optimizeAll :
    grounds.regime.Governs (fun _ => True) (optimizeAll grounds.target) fun _ _ => True := by
  have looked : grounds.regime.Governs (fun _ => True)
      (Step.look fun workspace => unoptimized workspace.foreign) fun pending present =>
        ∀ item ∈ pending, Marked (fun record => record.xmir.isSome) present.foreign item.1 :=
    .look fun _ holds _ _ member => marked_of_pending holds.1.foreign.sorted member
  refine .bind looked fun pending => .bind (governs_optimizeEach firm pending) fun done => ?_
  exact .bind (governs_recordOptimized firm done) fun _ => .pure fun _ _ _ => trivial

/-! ## Discovering -/

theorem governs_discoverName {optimized : Path} {twin : String}
    (place : optimized = optimizedPlace grounds.target twin) (name : String) :
    grounds.regime.Governs (fun present => grounds.Lasting present.disk optimized)
      (discoverName optimized name) fun _ present =>
        ∃ record, present.foreign.find? name = some record := by
  have seen : ∀ known : Bool, grounds.regime.Governs
      (fun present => grounds.Lasting present.disk optimized ∧
        ∃ record, present.foreign.find? name = some record)
      (do let _ ← Step.updateForeign name (asSeenIn optimized)
          pure (if known then 0 else 1))
      fun _ present => ∃ record, present.foreign.find? name = some record := by
    intro known
    refine .bind (((governs_change firm).keep stable_known).from_ fun present holds here => ?_)
      fun _ => .pure fun _ _ here => here.2
    obtain ⟨lasting, record, found⟩ := here
    have sameId := Catalog.id_of_find? found
    refine ⟨⟨record, found, ?_⟩, record, found⟩
    rw [← sameId] at found
    exact allowed_seenIn (holds.1.foreign.found found) found lasting ⟨twin, place⟩
  unfold discoverName
  refine .bind governs_look fun known => .ite (fun _ => ?_) fun contained => ?_
  · refine .bind ((((governs_add firm (fun _ => True) trivial).keep stable_lasting).from_
      fun _ _ here => ⟨fun _ _ => trivial, here.2⟩)) fun record => ?_
    exact (seen known).from_ fun _ _ here => ⟨here.2, record, here.1.1⟩
  · refine (seen known).from_ fun present _ here => ⟨here.2, ?_⟩
    rw [here.1] at contained
    unfold Catalog.contains at contained
    simpa only [Bool.not_eq_true, Bool.not_eq_false', Option.isSome_iff_exists] using contained

theorem governs_discoverNames {optimized : Path} {twin : String}
    (place : optimized = optimizedPlace grounds.target twin) (names : List String) :
    grounds.regime.Governs (fun present => grounds.Lasting present.disk optimized)
      (discoverNames optimized names) fun _ present =>
        ∀ name ∈ names, ∃ record, present.foreign.find? name = some record := by
  induction names with
  | nil => exact .pure fun _ _ _ name member => absurd member (by simp)
  | cons name rest inductionHypothesis =>
    refine .bind (((governs_discoverName firm place name).keep stable_lasting).from_
      fun _ _ here => ⟨here, here⟩) fun first => ?_
    refine .bind ((inductionHypothesis.keep stable_known).from_ fun _ _ here => ⟨here.2, here.1⟩)
      fun others => .pure fun present _ here other member => ?_
    rcases List.mem_cons.1 member with same | later
    · rw [same]
      exact here.2
    · exact here.1 other later

theorem governs_discoverObject (record : Record) :
    grounds.regime.Governs
      (fun present => ∃ current, present.foreign.find? record.id = some current ∧
        ∀ optimized ∈ record.optimized, current.optimized.isSome = true ∧
          optimized = optimizedPlace grounds.target record.id ∧
            grounds.Lasting present.disk optimized)
      (discoverObject record) fun _ _ => True := by
  unfold discoverObject
  cases isOptimized : record.optimized with
  | none => exact .pure fun _ _ _ => trivial
  | some optimized =>
    refine .given (fun known : optimized = optimizedPlace grounds.target record.id ∧
      (grounds.strict → Placeable record.id) => ?_) fun present holds here => ?_
    · obtain ⟨place, placeable⟩ := known
      have stable : grounds.regime.Stable fun present =>
          Marked (fun record => record.optimized.isSome) present.foreign record.id ∧
            grounds.Lasting present.disk optimized :=
        (stable_marked Record.Within.optimized).and stable_lasting
      have known : ∀ present : Workspace, (∃ current, present.foreign.find? record.id = some current ∧
          ∀ path ∈ some optimized, current.optimized.isSome = true ∧
            path = optimizedPlace grounds.target record.id ∧ grounds.Lasting present.disk path) →
          Marked (fun record => record.optimized.isSome) present.foreign record.id ∧
            grounds.Lasting present.disk optimized := by
        rintro present ⟨current, found, all⟩
        obtain ⟨marked, _, lasting⟩ := all optimized rfl
        exact ⟨⟨current, found, marked⟩, lasting⟩
      refine .bind governs_look fun disk => .bind (governs_outcome.telling fun names present _ here =>
        (⟨by rw [← here.2.1]; exact here.1, known present here.2.2⟩ :
          namesIn present.disk optimized = .ok names ∧ _)) fun names => ?_
      have reads : grounds.regime.Stable fun present => grounds.strict →
          namesIn present.disk (optimizedPlace grounds.target record.id) = .ok names :=
        stable_names placeable
      refine .bind (((governs_discoverNames firm place names).keep (stable.and reads)).from_
        fun present _ here => ⟨here.2.2, here.2, fun _ => by rw [← place]; exact here.1⟩)
        fun added => ?_
      refine .bind ((governs_change firm).from_ fun present holds here => ?_) fun _ =>
        .pure fun _ _ _ => trivial
      obtain ⟨closed, ⟨⟨current, found, marked⟩, _⟩, names_⟩ := here
      have sameId := Catalog.id_of_find? found
      refine ⟨current, found, ?_⟩
      rw [← sameId] at found names_
      exact allowed_discovered (holds.1.foreign.found found) found marked fun strict =>
        ⟨names, names_ strict, closed⟩
    · obtain ⟨current, found, all⟩ := here
      obtain ⟨marked, place, _⟩ := all optimized rfl
      have borne := holds.1.foreign.found found
      rw [← Catalog.id_of_find? found]
      refine ⟨by rw [Catalog.id_of_find? found]; exact place, fun strict => ?_⟩
      exact borne.placeable strict (borne.parsed (borne.optimized marked))

theorem governs_discoverAll :
    grounds.regime.Governs (fun _ => True) discoverAll fun _ _ => True := by
  have stable : ∀ record : Record, grounds.regime.Stable fun present =>
      ∃ current, present.foreign.find? record.id = some current ∧
        ∀ optimized ∈ record.optimized, current.optimized.isSome = true ∧
          optimized = optimizedPlace grounds.target record.id ∧
            grounds.Lasting present.disk optimized := by
    rintro record before after ⟨onward, grows⟩ ⟨current, found, all⟩
    obtain ⟨later, foundLater, within⟩ := grows record.id current found
    refine ⟨later, foundLater, fun optimized member => ?_⟩
    obtain ⟨marked, place, lasting⟩ := all optimized member
    exact ⟨within.optimized marked, place, onward.lasting lasting⟩
  have each : ∀ records : List Record, grounds.regime.Governs
      (fun present => ∀ record ∈ records,
        ∃ current, present.foreign.find? record.id = some current ∧
          ∀ optimized ∈ record.optimized, current.optimized.isSome = true ∧
            optimized = optimizedPlace grounds.target record.id ∧
              grounds.Lasting present.disk optimized)
      (discoverEach records) fun _ _ => True := by
    intro records
    induction records with
    | nil => exact .pure fun _ _ _ => trivial
    | cons record rest inductionHypothesis =>
      have kept := Regime.Stable.all fun other : Record => Regime.Stable.all
        fun _ : other ∈ record :: rest => stable other
      refine .bind (((governs_discoverObject firm record).keep kept).from_ fun _ _ here =>
        ⟨here record List.mem_cons_self, here⟩) fun first => ?_
      refine .bind (inductionHypothesis.from_ fun _ _ here other member =>
        here.2 other (List.mem_cons_of_mem _ member)) fun _ => .pure fun _ _ _ => trivial
  refine .bind (.look fun present holds _ => ?_) fun pending => each pending
  intro record member
  have among := (List.mem_filter.1 member).1
  refine ⟨record, Catalog.find?_of_mem holds.1.foreign.sorted among, fun optimized isOptimized => ?_⟩
  obtain ⟨lasting, place⟩ := (holds.1.foreign.records record among).document optimized isOptimized
  exact ⟨by rw [Option.mem_def.1 isOptimized]; rfl, place, lasting⟩

end Stages

end EoAssembly.Build
