import EoAssembly.Proofs.Build.Arranged
import EoAssembly.Proofs.Build.Covering
import EoAssembly.Proofs.Build.Repeating
import EoAssembly.Proofs.Build.Selected

/-!
Contract: a project that was never built, as a site.

The objects that may come up are those that the project needs, a source is an answer of the
store or stands in the project, and the files of its objects are apart and stand nowhere yet.
Nothing that builds write is on a way to the sources, so every build selects the same files.

A build whose outside fails now and then works on the same site as one whose outside answers.

Owns `Afresh`, `projectSite`, that it is firm and exact, `Remote.Falters`, and that builds of the
project are builds on the site.

Does not own: that it is flawless.
-/

namespace EoAssembly

/-- An outside that answers as another one does, or fails. -/
structure Remote.Falters (broken remote : Remote) : Prop where
  keeps : ∀ name disk, (broken.fetch name disk).2 = disk
  fetch : ∀ name disk text, (broken.fetch name disk).1 = .ok text →
    (remote.fetch name disk).1 = .ok text
  parse : ∀ id source made, broken.parse id source = .ok made → remote.parse id source = .ok made
  table : ∀ disk text, broken.table disk = .ok text → remote.table disk = .ok text

namespace Build

open ObjectName (Placeable placeable_of_checkPlace)
open Path (Component IsName)

/-- A project that was never built: with strict names, nothing in its target and its protocols,
and files of different objects that are apart. -/
structure Afresh (settings : Settings) (remote : Remote) (tags : Except Failure String)
    (start : Workspace) : Prop extends Unbuilt settings remote tags start where
  strict : settings.strictNames = true
  protocolsFresh : NothingBelow start.disk (settings.protocols.goal start.disk.current)
  apart : PiecesApart settings remote start.disk

/-- What a file of a project holds. -/
def sourceContent (settings : Settings) (disk : Disk) (file : Path) : FileContent :=
  match disk.entry? (settings.sources.join file) with
  | some (.file content) => content
  | some .directory => .text ""
  | none => .text ""

/-- A project on a disk, as a site where sources are kept. -/
def projectSite (settings : Settings) (remote : Remote) (tags : Except Failure String) (disk : Disk)
    (flawless : Prop) : Site where
  settings := settings
  start := disk
  files := registeredFiles settings disk
  content := sourceContent settings disk
  parse := remote.parse
  answers name text := (remote.fetch name disk).1 = .ok text
  involved := IsNeeded settings remote disk
  tags := tags
  keeps := True
  exact := True
  flawless := flawless

variable {settings : Settings} {remote : Remote} {tags : Except Failure String} {start : Workspace}
  {disk : Disk} {flawless : Prop} {id source : String} {file : Path} {piece : Piece}

/-! ## Sources -/

/-- A file that is registered stands where its path leads. -/
theorem registered_stands (tidy : disk.Tidy) (named : disk.WellNamed)
    (isDirectory : disk.isDirectory settings.sources = true)
    (member : file ∈ registeredFiles settings disk) :
    disk.entry? (settings.sources.join file) =
      some (.file (sourceContent settings disk file)) := by
  have listed := registeredFiles_filesIn member
  have some_ := filesIn_segments tidy isDirectory listed
  obtain ⟨plain, passable⟩ := registeredFiles_names named member
  obtain ⟨content, stands⟩ := (mem_filesIn tidy isDirectory).1 listed
  have components := Path.components_join_names settings.sources some_
    fun name inside => (plain name inside).names
  have ends : (settings.sources.join file).EndsInName := by
    obtain ⟨segments⟩ := file
    rw [Path.join_names _ fun name inside => (plain name inside).names]
    exact Path.endsInName_append _ some_ fun name inside => (plain name inside).names
  have passableFile : disk.Passable (settings.sources.join file) :=
    (Disk.passable_of_names components).2 passable
  have found : disk.entry? (settings.sources.join file) = some (.file content) := by
    rw [Disk.entry_of_name ends passableFile, Path.goal_of_names disk.current components]
    exact stands
  unfold sourceContent
  rw [found]

theorem sourceText_of_site (tidy : disk.Tidy) (named : disk.WellNamed)
    (isDirectory : disk.isDirectory settings.sources = true)
    (expected : (projectSite settings remote tags disk flawless).SourceText id source) :
    sourceText settings remote disk id = .ok source := by
  unfold Site.SourceText at expected
  unfold sourceText fileOf?
  cases last : lastNamed (registeredFiles settings disk) id with
  | none =>
    rw [show lastNamed (projectSite settings remote tags disk flawless).files id = none from last]
      at expected
    exact expected
  | some file =>
    rw [show lastNamed (projectSite settings remote tags disk flawless).files id = some file
      from last] at expected
    have content : sourceContent settings disk file = .text source := expected
    refine Site.readSource_eq_ok.2 ?_
    rw [registered_stands tidy named isDirectory (lastNamed_mem last).1, content]

/-- What an object refers to follows from its source alone. -/
theorem follows_references (tidy : disk.Tidy) (named : disk.WellNamed)
    (isDirectory : disk.isDirectory settings.sources = true) :
    (projectSite settings remote tags disk flawless).Follows (references settings remote disk) := by
  intro id source text made names _ expected isText isMade reads
  have parsed : parsedText settings remote disk id = .ok text := by
    unfold parsedText
    rw [sourceText_of_site tidy named isDirectory expected]
    exact isText
  have optimized : optimizedText settings remote disk id = .ok made := by
    unfold optimizedText
    rw [parsed]
    exact isMade
  have known : namesOfText (optimizedPlace settings.target id) made = .ok names := reads
  unfold references
  simp only [optimized, known]

/-! ## Catalog files -/

section Catalogs

variable {name : String} (known : name ∈ catalogFiles) (target : Path) (current : Location)

include known

theorem components_catalogFile :
    (target.child name).components = target.components ++ [name].map Component.named :=
  Path.components_child target (Site.isName_catalogFiles name known)

theorem goal_catalogFile : (target.child name).goal current = target.goal current ++ [name] :=
  Path.goal_of_names current (components_catalogFile known target)

theorem above_catalogFile : (target.child name).above current = target.way current := by
  unfold Path.above Path.way
  rw [Path.components_child _ (Site.isName_catalogFiles name known), List.dropLast_concat]

end Catalogs

/-! ## Pieces -/

section Pieces

variable (afresh : Afresh settings remote tags start)
  (checked : ∀ file ∈ registeredFiles settings start.disk, checkName file = .ok ())
  (live : (projectSite settings remote tags start.disk flawless).Live piece id)

include live in
theorem arises_of_live : Piece.Arises settings remote start.disk piece id :=
  ⟨live.involved, live.stored, live.position⟩

include afresh checked live in
theorem placeable_of_live : Placeable id := by
  by_cases registers : (projectSite settings remote tags start.disk flawless).Registers id
  · obtain ⟨file, member, rfl⟩ := List.mem_map.1 registers
    exact (placeable_of_file (registeredFiles_names afresh.named member).1 (checked file member)).2
  · exact placeable_of_checkPlace (live.placed registers)

include live in
/-- A log is that of an object that a document refers to. -/
theorem segments_of_live (isLog : piece = .log) : ObjectName.segments "log" id ≠ [] :=
  segments_of_needed live.involved (live.stored (by rw [isLog]; rfl))

include afresh checked live in
theorem piece_endsInName : (piece.place settings id).EndsInName :=
  Piece.endsInName (placeable_of_live afresh checked live) live.position (segments_of_live live)

include afresh checked live in
theorem piece_clear_sources :
    (piece.place settings id).Clear start.disk.current settings.sources :=
  afresh.separate.piece_clear (placeable_of_live afresh checked live) live.position
    (fun on => Piece.shelf_ne_sources on rfl)

omit live in
include afresh in
theorem catalog_clear_sources {name : String} (known : name ∈ catalogFiles) :
    (settings.target.child name).Clear start.disk.current settings.sources := by
  have noShelf : Shelf.sources.name? ≠ some name := by simp [Shelf.name?]
  exact afresh.separate.clear_behind (components_catalogFile known settings.target) noShelf

omit live in
include afresh checked in
/-- Nothing that builds write is on a way to the sources. -/
theorem writes_clear_sources {path : Path}
    (writes : (projectSite settings remote tags start.disk flawless).Writes path) :
    path.Clear start.disk.current settings.sources := by
  cases writes with
  | piece live => exact piece_clear_sources afresh checked live
  | catalog known => exact catalog_clear_sources afresh known

include afresh checked live in
/-- Nothing stands where a piece belongs. -/
theorem piece_vacant : start.disk.entryAt? ((piece.place settings id).goal start.disk.current) =
    none := by
  have placeable := placeable_of_live afresh checked live
  by_cases isLog : piece = .log
  · have segments := segments_of_live live isLog
    subst isLog
    change start.disk.entryAt? ((logPlace settings.protocols id).goal start.disk.current) = none
    rw [Path.goal_of_names start.disk.current (components_log placeable settings.protocols)]
    refine afresh.protocolsFresh _ (List.prefix_append _ _) fun same => ?_
    exact segments (List.append_right_eq_self.1 same)
  · have below : ∃ first rest, (piece.place settings id).goal start.disk.current =
        settings.target.goal start.disk.current ++ first :: rest :=
      Piece.goal_below placeable live.position isLog start.disk.current
    obtain ⟨first, rest, goal⟩ := below
    rw [goal]
    refine afresh.fresh _ (List.prefix_append _ _) fun same => ?_
    rw [List.append_right_eq_self] at same
    exact absurd same (by simp)

end Pieces

/-! ## The site -/

section Site

variable (afresh : Afresh settings remote tags start)
  (checked : ∀ file ∈ registeredFiles settings start.disk, checkName file = .ok ())

include afresh checked

/-- Builds write where nothing stands, and no file is above another. -/
theorem exact_projectSite : (projectSite settings remote tags start.disk flawless).Exact where
  keeps := trivial
  ends path writes := by
    cases writes with
    | piece live => exact piece_endsInName afresh checked live
    | catalog known => exact Path.endsInName_child _ (Site.isName_catalogFiles _ known)
  clear path other writes writesOther := by
    cases writesOther with
    | @piece other twin liveOther =>
      have placeableTwin := placeable_of_live afresh checked liveOther
      cases writes with
      | @piece piece id live =>
        exact afresh.apart.not_above afresh.separate (arises_of_live live) (arises_of_live liveOther)
          (placeable_of_live afresh checked live) placeableTwin (segments_of_live liveOther)
      | @catalog name known =>
        intro member
        change (settings.target.child name).goal start.disk.current ∈ _ at member
        rw [goal_catalogFile known] at member
        exact afresh.separate.catalog_not_on_way placeableTwin liveOther.position known
          ((Path.mem_way_iff_above (piece_endsInName afresh checked liveOther)).2 (Or.inl member))
    | @catalog other knownOther =>
      change _ ∉ (settings.target.child other).above start.disk.current
      rw [above_catalogFile knownOther]
      cases writes with
      | @piece piece id live =>
        exact afresh.separate.not_on_target_way (placeable_of_live afresh checked live) live.position
      | @catalog name known =>
        intro member
        change (settings.target.child name).goal start.disk.current ∈ _ at member
        rw [goal_catalogFile known] at member
        have itself := afresh.separate.directTarget _ member (List.prefix_append _ _)
        simp at itself
  free path writes := by
    cases writes with
    | piece live => exact piece_vacant afresh checked live
    | @catalog name known =>
      change start.disk.entryAt? ((settings.target.child name).goal start.disk.current) = none
      rw [goal_catalogFile known]
      refine afresh.fresh _ (List.prefix_append _ _) fun same => ?_
      rw [List.append_right_eq_self] at same
      exact absurd same (by simp)

/-- The site of a project is firm when what flawless grounds ask for is there. -/
theorem firm_projectSite (isDirectory : start.disk.isDirectory settings.sources = true)
    (able : flawless → (projectSite settings remote tags start.disk flawless).Able) :
    (projectSite settings remote tags start.disk flawless).Firm where
  sources := afresh.sources
  target := afresh.target
  names file member := ⟨filesIn_segments afresh.tidy isDirectory (registeredFiles_filesIn member),
    (registeredFiles_names afresh.named member).1⟩
  roots file member := ⟨0, .root (List.mem_map_of_mem member)⟩
  closed id source text made names involved expected isText isMade reads name member := by
    have same := follows_references afresh.tidy afresh.named isDirectory id source text made names
      involved expected isText isMade reads
    obtain ⟨count, reaches⟩ := involved
    exact ⟨count + 1, .refers reaches (same ▸ member)⟩
  apart piece id other twin live liveOther :=
    afresh.apart.distinct afresh.separate (arises_of_live live) (arises_of_live liveOther)
      (placeable_of_live afresh checked live) (placeable_of_live afresh checked liveOther)
      (segments_of_live liveOther)
  beside piece id live file known := by
    have placeable := placeable_of_live afresh checked live
    by_cases isLog : piece = .log
    · subst isLog
      change (logPlace settings.protocols id).goal start.disk.current ≠
        settings.target.goal start.disk.current ++ [file]
      rw [Path.goal_of_names start.disk.current (components_log placeable settings.protocols)]
      intro same
      have below : settings.protocols.goal start.disk.current <+:
          settings.target.goal start.disk.current ++ [file] := by
        rw [← same]
        exact List.prefix_append _ _
      rcases List.prefix_or_prefix_of_prefix below (List.prefix_append _ [file]) with wrong | wrong
      · exact afresh.separate.targetProtocols.goal wrong
      · exact afresh.separate.protocolsTarget.goal wrong
    · exact (Piece.inside placeable live.position isLog start.disk.current).not_catalog known
  aloof file member := by
    have below : settings.sources.goal start.disk.current <+:
        (settings.sources.join file).goal start.disk.current := by
      rw [Path.goal_of_names start.disk.current (Path.components_join_names settings.sources
        (filesIn_segments afresh.tidy isDirectory (registeredFiles_filesIn member))
        fun name inside => ((registeredFiles_names afresh.named member).1 name inside).names)]
      exact List.prefix_append _ _
    constructor
    · intro piece id live same
      change (settings.sources.join file).goal start.disk.current =
        (piece.place settings id).goal start.disk.current at same
      rw [same] at below
      exact (piece_clear_sources afresh checked live).goal below
    · intro name known same
      change (settings.sources.join file).goal start.disk.current =
        settings.target.goal start.disk.current ++ [name] at same
      rw [same, ← goal_catalogFile known] at below
      exact (catalog_clear_sources afresh known).goal below
  exact _ := exact_projectSite afresh checked
  able := able

/-! ## Builds on the site -/

/-- A project that was never built can be taken up. -/
theorem resumable_projectSite (isDirectory : start.disk.isDirectory settings.sources = true) :
    (projectSite settings remote tags start.disk flawless).Resumable start.disk := by
  have isExact : (projectSite settings remote tags start.disk flawless).Exact :=
    exact_projectSite afresh checked
  have free := isExact.free
  refine Site.resumable_start afresh.sound (fun file member =>
    registered_stands afresh.tidy afresh.named isDirectory member) (fun _ => afresh.tidy)
    (fun piece id live _ => ?_) fun file known content stands => ?_
  · rintro ⟨content, holds⟩
    exact absurd ((free _ (.piece live)).symm.trans holds) (by simp)
  · have isFile := (catalogNames_plain file known).2.2.1
    exact absurd ((free _ (.catalog isFile)).symm.trans stands) (by simp)

/-- Builds leave the sources as they are. -/
theorem sources_same {location : Location}
    (neat : (projectSite settings remote tags start.disk flawless).Neat disk)
    (below : settings.sources.goal start.disk.current <+: location) :
    disk.entryAt? location = start.disk.entryAt? location := by
  cases stands : disk.entryAt? location with
  | none =>
    cases before : start.disk.entryAt? location with
    | none => rfl
    | some entry => exact absurd ((neat.stays location entry before).symm.trans stands) (by simp)
  | some entry =>
    cases entry with
    | file content =>
      rcases neat.files location content stands with before | ⟨path, writes, rfl, _⟩
      · exact before.symm
      · exact absurd below (writes_clear_sources afresh checked writes).goal
    | directory =>
      rcases neat.directories location (Disk.directoryAt_iff.2 stands) with
        before | ⟨⟨path, writes, above⟩, _⟩
      · exact (Disk.directoryAt_iff.1 before).symm
      · have onWay := (Path.mem_way_iff_above
          ((exact_projectSite afresh checked).ends path writes)).2 (Or.inl above)
        exact absurd below ((writes_clear_sources afresh checked writes).way onWay)

/-- Wherever the work can be taken up, the directory of the sources is there. -/
theorem isDirectory_sources (isDirectory : start.disk.isDirectory settings.sources = true)
    (resumable : (projectSite settings remote tags start.disk flawless).Resumable disk) :
    disk.isDirectory settings.sources = true := by
  have neat := resumable.neat trivial
  obtain ⟨_, passable, _⟩ := Disk.entry_eq_some (beq_iff_eq.1 isDirectory)
  unfold Disk.isDirectory
  rw [Disk.entry_congr resumable.laid.current ⟨fun _ => passable, fun _ => neat.passes _ passable⟩
    (sources_same afresh checked neat List.prefix_rfl)]
  exact isDirectory

/-- Wherever the work can be taken up, the same files are registered. -/
theorem selects_projectSite (isDirectory : start.disk.isDirectory settings.sources = true)
    (included : ∃ included, Settings.patterns settings.included = .ok included)
    (excluded : ∃ excluded, Settings.patterns settings.excluded = .ok excluded)
    (resumable : (projectSite settings remote tags start.disk flawless).Resumable disk) :
    (projectSite settings remote tags start.disk flawless).Selects settings disk := by
  have neat := resumable.neat trivial
  have here := isDirectory_sources afresh checked isDirectory resumable
  exact ⟨registeredFiles_congr (filesIn_congr afresh.tidy neat.tidy resumable.laid.current isDirectory
    here fun _ below => sources_same afresh checked neat below), fun _ => here, fun _ => included,
    fun _ => excluded, fun _ _ => checked⟩

omit checked in
/-- A build with an outside that fails now and then is one on the site; on flawless grounds the
outside doesn't fail for what the project needs. -/
theorem suits_projectSite {broken : Remote} (falters : broken.Falters remote)
    (serves : flawless → broken = remote ∧ ∀ name, IsNeeded settings remote start.disk name →
      name ∉ registeredIds settings start.disk →
        ∃ text, (remote.fetch name start.disk).1 = .ok text) :
    (projectSite settings remote tags start.disk flawless).Suits settings broken := by
  have alike : ∀ name disk, (remote.fetch name disk).1 = (remote.fetch name start.disk).1 := by
    obtain ⟨store, function⟩ := afresh.store
    rw [function]
    exact fun _ _ => rfl
  refine ⟨rfl, rfl, rfl, rfl, fun _ => rfl, fun never => absurd trivial never, fun _ => afresh.keeps,
    falters.parse, falters.keeps, fun name disk text answer => ?_, fun _ disk text loaded => ?_,
    fun whole => ?_, fun whole name involved foreign disk => ?_, fun whole disk => ?_⟩
  · exact (alike name disk).symm.trans (falters.fetch name disk text answer)
  · exact (afresh.table disk).symm.trans (falters.table disk text loaded)
  · rw [(serves whole).1]
    exact fun _ _ _ made => made
  · obtain ⟨same, served⟩ := serves whole
    obtain ⟨text, answer⟩ := served name involved foreign
    rw [same]
    exact ⟨text, (alike name disk).trans answer⟩
  · rw [(serves whole).1]
    exact afresh.table disk

end Site

end Build

end EoAssembly
