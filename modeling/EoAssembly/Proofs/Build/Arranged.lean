import EoAssembly.Proofs.Build.Pieces
import EoAssembly.Proofs.Build.Writable

/-!
Contract: the files that a build writes don't get in each other's way.

That the files of different objects don't is asked of a project.  The rest follows from
directories that are apart: the file of a piece is on the way to no other piece of its
object and not above itself, no catalog file is on the way to a piece, and no piece is on
the way to the target.

Owns `Piece.Arises`, `PiecesApart`, and what the directories of a build do for the pieces of
one object and for the catalog files.
-/

namespace EoAssembly

open Path (Component IsName)

namespace Path

variable {current reached : Location} {path directory : Path} {names : List String}

/-- A path that ends in a name reaches what it reaches before, and its goal. -/
theorem mem_way_iff_above (ends : path.EndsInName) :
    reached ∈ path.way current ↔ reached ∈ path.above current ∨ reached = path.goal current := by
  obtain ⟨name, components⟩ := ends.components_eq
  unfold way above goal
  rw [components, List.dropLast_concat, wayFrom_append, goalFrom_append, List.mem_append]
  simp [wayFrom, goalFrom]

/-- The goal of a path behind names of a directory is not above itself, unless the way to the
directory leads below it. -/
theorem Direct.not_above (direct : directory.Direct current) (some_ : names ≠ [])
    (behind : path.components = directory.components ++ names.map Component.named) :
    path.goal current ∉ path.above current := by
  obtain ⟨front, last, rfl⟩ := (List.eq_nil_or_concat names).resolve_left some_
  rw [List.concat_eq_append] at behind
  have goal := goal_of_names current behind
  unfold above
  rw [behind, List.map_append, ← List.append_assoc, List.map_singleton, List.dropLast_concat,
    wayFrom_append, List.mem_append, goal]
  rintro (onWay | below)
  · have itself := direct _ onWay (List.prefix_append _ _)
    simp at itself
  · obtain ⟨part, _, starts, same⟩ := mem_wayFrom_names.1 below
    have whole : front ++ [last] = part := List.append_cancel_left same
    have short := starts.length_le
    rw [← whole, List.length_append, List.length_singleton] at short
    omega

end Path

namespace Build

open ObjectName (Placeable Storable)

/-! ## Pieces on shelves -/

namespace Piece

/-- The shelf that a piece is on; the results of passes are on none. -/
def shelf? : Piece → Option Shelf
  | .parsed => some .parsed
  | .step _ => none
  | .optimized => some .optimized
  | .pulled => some .pulled
  | .log => some .logs

theorem place_of_shelf {piece : Piece} {shelf : Shelf} (on : piece.shelf? = some shelf)
    (settings : Settings) (id : String) : piece.place settings id = shelf.file settings id := by
  cases piece with
  | parsed => rw [← Option.some.inj on]; rfl
  | optimized => rw [← Option.some.inj on]; rfl
  | pulled => rw [← Option.some.inj on]; rfl
  | log => rw [← Option.some.inj on]; rfl
  | step index => exact absurd on (by simp [shelf?])

theorem shelf_inj {piece other : Piece} {shelf : Shelf} (on : piece.shelf? = some shelf)
    (onOther : other.shelf? = some shelf) : piece = other := by
  rw [← onOther] at on
  cases piece <;> cases other
  case step.step => exact absurd onOther (by simp [shelf?])
  all_goals first | rfl | exact absurd on (by simp [shelf?])

theorem shelf_ne_sources {piece : Piece} {shelf : Shelf} (on : piece.shelf? = some shelf) :
    shelf ≠ .sources := by
  rintro rfl
  cases piece <;> exact absurd on (by simp [shelf?])

theorem step_of_shelf {piece : Piece} (off : piece.shelf? = none) : ∃ index, piece = .step index := by
  cases piece with
  | step index => exact ⟨index, rfl⟩
  | parsed => exact absurd off (by simp [shelf?])
  | optimized => exact absurd off (by simp [shelf?])
  | pulled => exact absurd off (by simp [shelf?])
  | log => exact absurd off (by simp [shelf?])

/-- Whether the position of a pass is one, for the result of a pass. -/
def Positioned (piece : Piece) : Prop :=
  ∀ index, piece = .step index → index < Pass.all.length

/-- The results of the passes have names of their own, which are those of no shelf and of no
catalog file. -/
theorem stepNames : ∀ index ∈ List.range Pass.all.length,
    (IsName (stepName index) ∧ stepName index ≠ stepsDirectory ∧ stepName index ∉ catalogFiles ∧
      ∀ shelf ∈ [Shelf.parsed, .optimized, .pulled, .logs, .sources],
        shelf.name? ≠ some (stepName index)) ∧
    ∀ twin ∈ List.range Pass.all.length, stepName index = stepName twin → index = twin := by
  decide +kernel

section Step

variable {index twin : Nat} (positioned : (Piece.step index).Positioned)

include positioned

theorem isName_step : IsName (stepName index) :=
  (stepNames index (List.mem_range.2 (positioned index rfl))).1.1

theorem step_ne_directory : stepName index ≠ stepsDirectory :=
  (stepNames index (List.mem_range.2 (positioned index rfl))).1.2.1

theorem step_not_catalog : stepName index ∉ catalogFiles :=
  (stepNames index (List.mem_range.2 (positioned index rfl))).1.2.2.1

theorem isStep_step : IsStep (stepName index) where
  plain := isName_step positioned
  noShelf shelf := (stepNames index (List.mem_range.2 (positioned index rfl))).1.2.2.2 shelf
    (by cases shelf <;> simp)

theorem stepName_inj (positionedTwin : (Piece.step twin).Positioned)
    (same : stepName index = stepName twin) : index = twin :=
  (stepNames index (List.mem_range.2 (positioned index rfl))).2 twin
    (List.mem_range.2 (positionedTwin twin rfl)) same

end Step

end Piece

variable {settings : Settings} {remote : Remote} {disk : Disk} {current : Location} {id : String}
  {piece other : Piece}

/-! ## The results of passes of one object -/

section Steps

variable {target : Path} {file twin : String} (storable : Storable id) (plain : IsName file)
  (plainTwin : IsName twin)

include storable plain plainTwin

/-- The result of a pass is not above that of another, unless its name is that of their
directory. -/
theorem step_not_above (direct : target.Direct current) (different : file ≠ stepsDirectory) :
    ((stepsPlace target id).child file).goal current ∉
      ((stepsPlace target id).child twin).above current := by
  obtain ⟨turn, components⟩ := components_step_storable storable target
  let start := target.goal current ++ [stepsDirectory]
  let reaches := Path.goalFrom start (Path.componentOf turn).toList
  let parts := ObjectName.placeParts false (Text.splitAll '.' (ObjectName.split id).1)
  -- the version leads one name further, nowhere, or back to the target
  have turned : target.goal current <+: reaches ∧
      ∀ reached ∈ Path.wayFrom start (Path.componentOf turn).toList, reached = reaches := by
    rcases componentOf_cases turn with none | up | named
    · simp [reaches, start, none, Path.goalFrom, Path.wayFrom]
    · simp [reaches, start, up, Path.goalFrom, Path.wayFrom]
    · simp [reaches, start, named, Path.goalFrom, Path.wayFrom]
  obtain ⟨below, onTurn⟩ := turned
  have goal : ((stepsPlace target id).child file).goal current = reaches ++ (parts ++ [file]) := by
    unfold Path.goal
    rw [components plain, Path.goalFrom_append, Path.goalFrom, Path.goalFrom_append,
      Path.goalFrom_names]
    rfl
  have longer : reaches.length < (reaches ++ (parts ++ [file])).length := by
    simp only [List.length_append, List.length_singleton]
    omega
  have front : ((stepsPlace target id).child twin).components.dropLast = target.components ++
      .named stepsDirectory ::
        ((Path.componentOf turn).toList ++ parts.map Component.named) := by
    rw [components plainTwin, List.map_append, List.map_singleton, ← List.append_assoc,
      ← List.cons_append, ← List.append_assoc, List.dropLast_concat]
  unfold Path.above
  rw [front, Path.wayFrom_append, List.mem_append, Path.wayFrom, List.mem_cons,
    Path.wayFrom_append, List.mem_append, goal]
  rintro (onWay | atStart | atTurn | behind)
  · have itself := direct _ onWay (below.trans (List.prefix_append _ _))
    have short := below.length_le
    rw [itself] at longer
    exact absurd (Nat.lt_of_lt_of_le longer short) (Nat.lt_irrefl _)
  · rw [← List.append_assoc] at atStart
    exact different (List.singleton_inj.1 (List.append_inj_right' atStart rfl))
  · rw [onTurn _ atTurn] at longer
    exact absurd longer (Nat.lt_irrefl _)
  · obtain ⟨some_, _, starts, same⟩ := Path.mem_wayFrom_names.1 behind
    have whole : parts ++ [file] = some_ := List.append_cancel_left same
    have short := starts.length_le
    rw [← whole, List.length_append, List.length_singleton] at short
    omega

/-- The results of two passes are in two places. -/
theorem step_goal_inj (same : ((stepsPlace target id).child file).goal current =
    ((stepsPlace target id).child twin).goal current) : file = twin := by
  obtain ⟨turn, components⟩ := components_step_storable storable target
  let parts := ObjectName.placeParts false (Text.splitAll '.' (ObjectName.split id).1)
  have goal : ∀ {name}, IsName name → ((stepsPlace target id).child name).goal current =
      Path.goalFrom current (target.components ++
        .named stepsDirectory :: (Path.componentOf turn).toList) ++ (parts ++ [name]) := by
    intro name plainName
    unfold Path.goal
    rw [components plainName, ← List.cons_append, ← List.append_assoc, Path.goalFrom_append,
      Path.goalFrom_names]
  rw [goal plain, goal plainTwin] at same
  exact List.singleton_inj.1 (List.append_cancel_left (List.append_cancel_left same))

end Steps

/-! ## The pieces of one object -/

section Pieces

variable (separate : Separate settings current) (placeable : Placeable id)
  (positioned : piece.Positioned)

include placeable positioned in
theorem Piece.endsInName (some_ : piece = .log → ObjectName.segments "log" id ≠ []) :
    (piece.place settings id).EndsInName := by
  cases piece with
  | parsed => exact endsInName_stage isName_parsed isExtension_document placeable settings.target
  | optimized =>
    exact endsInName_stage isName_optimized isExtension_document placeable settings.target
  | pulled => exact endsInName_stage isName_pulled isExtension_source placeable settings.target
  | log => exact endsInName_logPlace placeable (some_ rfl) settings.protocols
  | step index => exact endsInName_step (Piece.isName_step positioned) settings.target

include placeable positioned in
/-- All pieces but logs are in the target, under some name. -/
theorem Piece.goal_below (noLog : piece ≠ .log) (current : Location) :
    ∃ first rest, (piece.place settings id).goal current =
      settings.target.goal current ++ first :: rest := by
  cases piece with
  | parsed =>
    exact ⟨_, _, Path.goal_of_names _
      (components_stage isName_parsed isExtension_document placeable settings.target)⟩
  | optimized => exact ⟨_, _, goal_optimizedPlace placeable settings.target current⟩
  | pulled =>
    exact ⟨_, _, Path.goal_of_names _
      (components_stage isName_pulled isExtension_source placeable settings.target)⟩
  | log => exact absurd rfl noLog
  | step index =>
    obtain ⟨first, rest, goal, _⟩ :=
      goal_step placeable (Piece.isName_step positioned) settings.target current
    exact ⟨first, rest, goal⟩

include placeable positioned in
theorem Piece.inside (noLog : piece ≠ .log) (current : Location) :
    (piece.place settings id).Inside current settings.target := by
  have storable := placeable.storable
  cases piece with
  | parsed => exact inside_parsedPlace storable settings.target current
  | optimized => exact inside_optimizedPlace storable settings.target current
  | pulled => exact inside_pulledPlace storable settings.target current
  | log => exact absurd rfl noLog
  | step index =>
    exact inside_step storable (Piece.isName_step positioned) (Piece.step_not_catalog positioned)
      settings.target current

include separate

/-- The way to the log of an object doesn't lead into the target. -/
theorem Separate.log_clear (placeable : Placeable id) :
    (logPlace settings.protocols id).Clear current settings.target :=
  .behind (components_log placeable settings.protocols) separate.protocolsTarget
    separate.targetProtocols

include placeable positioned

/-- The way to a piece doesn't lead into the directory of a shelf that it is not on. -/
theorem Separate.piece_clear {shelf : Shelf} (off : piece.shelf? ≠ some shelf) :
    (piece.place settings id).Clear current (shelf.directory settings) := by
  cases on : piece.shelf? with
  | some own =>
    rw [Piece.place_of_shelf on]
    refine separate.file_clear placeable (Piece.shelf_ne_sources on) ?_
    rintro rfl
    exact off on
  | none =>
    cases piece with
    | step index => exact separate.step_clear placeable (Piece.isStep_step positioned)
    | parsed => exact absurd on (by simp [Piece.shelf?])
    | optimized => exact absurd on (by simp [Piece.shelf?])
    | pulled => exact absurd on (by simp [Piece.shelf?])
    | log => exact absurd on (by simp [Piece.shelf?])

/-- A piece is not above itself. -/
theorem Separate.not_above (some_ : piece = .log → ObjectName.segments "log" id ≠ []) :
    (piece.place settings id).goal current ∉ (piece.place settings id).above current := by
  cases piece with
  | parsed =>
    exact separate.directTarget.not_above (by simp)
      (components_stage isName_parsed isExtension_document placeable settings.target)
  | optimized =>
    exact separate.directTarget.not_above (by simp)
      (components_stage isName_optimized isExtension_document placeable settings.target)
  | pulled =>
    exact separate.directTarget.not_above (by simp)
      (components_stage isName_pulled isExtension_source placeable settings.target)
  | log =>
    exact separate.directProtocols.not_above (some_ rfl)
      (components_log placeable settings.protocols)
  | step index =>
    exact step_not_above placeable.storable (Piece.isName_step positioned)
      (Piece.isName_step positioned) separate.directTarget (Piece.step_ne_directory positioned)

/-- The file of a name in the target is not on the way to a piece, unless it is on the way to
the target or in the place of the first name behind it. -/
theorem Separate.catalog_not_on_way {file : String} (known : file ∈ catalogFiles) :
    settings.target.goal current ++ [file] ∉ (piece.place settings id).way current := by
  intro member
  by_cases isLog : piece = .log
  · subst isLog
    exact (separate.log_clear placeable).way member (List.prefix_append _ _)
  · rcases (Piece.inside placeable positioned isLog current).way _ member with
      onWay | ⟨behind, same, first⟩
    · have itself := separate.directTarget _ onWay (List.prefix_append _ _)
      simp at itself
    · have isFile : [file] = behind := List.append_cancel_left same
      rw [← isFile] at first
      exact first file rfl known

/-- No piece is on the way to the target. -/
theorem Separate.not_on_target_way :
    (piece.place settings id).goal current ∉ settings.target.way current := by
  intro member
  by_cases isLog : piece = .log
  · subst isLog
    refine separate.targetProtocols.way member ?_
    change _ <+: (logPlace settings.protocols id).goal current
    rw [Path.goal_of_names current (components_log placeable settings.protocols)]
    exact List.prefix_append _ _
  · obtain ⟨first, rest, goal⟩ := Piece.goal_below placeable positioned isLog current
    rw [goal] at member
    have itself := separate.directTarget _ member (List.prefix_append _ _)
    simp at itself

/-- A piece is not on the way to one that isn't on its shelf. -/
theorem Separate.shelves_apart {twin : String} (placeableTwin : Placeable twin)
    (positionedOther : other.Positioned) (different : piece.shelf? ≠ other.shelf?) :
    (piece.place settings id).goal current ∉ (other.place settings twin).way current := by
  cases on : piece.shelf? with
  | some shelf =>
    intro member
    apply (separate.piece_clear placeableTwin positionedOther (on ▸ different.symm)).way member
    rw [Piece.place_of_shelf on]
    exact shelf.below_directory placeable settings current
  | none =>
    obtain ⟨index, rfl⟩ := Piece.step_of_shelf on
    have isStep := Piece.isStep_step positioned
    obtain ⟨first, rest, goal, either⟩ := goal_step placeable isStep.plain settings.target current
    -- in the target a result is under a name that no shelf has
    have onShelf : ∀ {name extension : String}, IsName name → ObjectName.IsExtension extension →
        stepsDirectory ≠ name → Piece.stepName index ≠ name →
        ((stepsPlace settings.target id).child (Piece.stepName index)).goal current ∉
          (ObjectName.place twin (settings.target.child name) extension).way current := by
      intro name extension plain isExtension noSteps noFile member
      rw [goal] at member
      rcases (Path.mem_way_of_names current
        (components_stage plain isExtension placeableTwin settings.target)).1 member with
        onWay | ⟨front, _, starts, same⟩
      · have itself := separate.directTarget _ onWay (List.prefix_append _ _)
        simp at itself
      · rw [← List.append_cancel_left same] at starts
        rcases either with isSteps | isFile
        · exact noSteps (isSteps ▸ (List.cons_prefix_cons.1 starts).1)
        · exact noFile (isFile ▸ (List.cons_prefix_cons.1 starts).1)
    have noShelf : ∀ (shelf : Shelf) {name : String}, shelf.name? = some name →
        Piece.stepName index ≠ name := by
      intro shelf name named same
      exact isStep.noShelf shelf (same ▸ named)
    cases other with
    | parsed => exact onShelf isName_parsed isExtension_document (by decide) (noShelf .parsed rfl)
    | optimized =>
      exact onShelf isName_optimized isExtension_document (by decide) (noShelf .optimized rfl)
    | pulled => exact onShelf isName_pulled isExtension_source (by decide) (noShelf .pulled rfl)
    | log =>
      intro member
      apply (separate.log_clear placeableTwin).way member
      change _ <+: ((stepsPlace settings.target id).child (Piece.stepName index)).goal current
      rw [goal]
      exact List.prefix_append _ _
    | step twin => exact absurd rfl different

/-- A piece of an object is not on the way to another piece of it. -/
theorem Separate.pieces_apart (positionedOther : other.Positioned) (different : piece ≠ other) :
    (piece.place settings id).goal current ∉ (other.place settings id).way current := by
  by_cases shelves : piece.shelf? = other.shelf?
  · cases on : piece.shelf? with
    | some shelf => exact absurd (Piece.shelf_inj on (shelves ▸ on)) different
    | none =>
      obtain ⟨index, rfl⟩ := Piece.step_of_shelf on
      obtain ⟨twin, rfl⟩ := Piece.step_of_shelf (shelves ▸ on)
      have plain := Piece.isName_step positioned
      have plainTwin := Piece.isName_step positionedOther
      intro member
      rcases (Path.mem_way_iff_above (endsInName_step plainTwin settings.target)).1 member with
        above | same
      · exact step_not_above placeable.storable plain plainTwin separate.directTarget
          (Piece.step_ne_directory positioned) above
      · have sameName := step_goal_inj placeable.storable plain plainTwin same
        exact different (by rw [Piece.stepName_inj positioned positionedOther sameName])
  · exact separate.shelves_apart placeable positioned placeable positionedOther shelves

end Pieces

/-! ## Pieces of different objects -/

/-- A piece that may come up in builds of a project: one of an object that is needed, where
pulled sources and logs are those of objects that no file registers. -/
structure Piece.Arises (settings : Settings) (remote : Remote) (disk : Disk) (piece : Piece)
    (id : String) : Prop where
  needed : IsNeeded settings remote disk id
  stored : piece.isStored = true → id ∉ registeredIds settings disk
  position : piece.Positioned

/-- A piece that may come up is on its shelf. -/
theorem Piece.Arises.onShelf {shelf : Shelf} (arises : Piece.Arises settings remote disk piece id)
    (on : piece.shelf? = some shelf) : OnShelf settings remote disk shelf id := by
  cases piece with
  | parsed => rw [← Option.some.inj on]; exact arises.needed
  | optimized => rw [← Option.some.inj on]; exact arises.needed
  | pulled => rw [← Option.some.inj on]; exact ⟨arises.needed, arises.stored rfl⟩
  | log => rw [← Option.some.inj on]; exact ⟨arises.needed, arises.stored rfl⟩
  | step index => exact absurd on (by simp [Piece.shelf?])

/-- The files of different objects have distinct places, and none is inside another. -/
def PiecesApart (settings : Settings) (remote : Remote) (disk : Disk) : Prop :=
  ∀ piece id other twin, Piece.Arises settings remote disk piece id →
    Piece.Arises settings remote disk other twin → id ≠ twin → Placeable id → Placeable twin →
      (piece.place settings id).goal disk.current ∉ (other.place settings twin).way disk.current

/-- The shelves are apart where all pieces are. -/
theorem PiecesApart.places (apart : PiecesApart settings remote disk) :
    PlacesApart settings remote disk := by
  have arises : ∀ {shelf id}, OnShelf settings remote disk shelf id →
      ∃ piece : Piece, piece.shelf? = some shelf ∧ Piece.Arises settings remote disk piece id := by
    intro shelf id on
    cases shelf with
    | parsed => exact ⟨.parsed, rfl, on, by simp [Piece.isStored], by simp [Piece.Positioned]⟩
    | optimized => exact ⟨.optimized, rfl, on, by simp [Piece.isStored], by simp [Piece.Positioned]⟩
    | pulled => exact ⟨.pulled, rfl, on.1, fun _ => on.2, by simp [Piece.Positioned]⟩
    | logs => exact ⟨.log, rfl, on.1, fun _ => on.2, by simp [Piece.Positioned]⟩
    | sources => exact on.elim
  intro shelf id twin on onOther different placeable placeableTwin
  obtain ⟨piece, isShelf, one⟩ := arises on
  obtain ⟨other, isOther, two⟩ := arises onOther
  have free := apart piece id other twin one two different placeable placeableTwin
  rw [Piece.place_of_shelf isShelf, Piece.place_of_shelf isOther] at free
  exact free

/-- All pieces are apart where the shelves are, and the directories that the results of passes on
different objects are in. -/
theorem PlacesApart.pieces (places : PlacesApart settings remote disk)
    (separate : Separate settings disk.current)
    (steps : ∀ id twin, IsNeeded settings remote disk id → IsNeeded settings remote disk twin →
      id ≠ twin →
        (stepsPlace settings.target id).Clear disk.current (stepsPlace settings.target twin)) :
    PiecesApart settings remote disk := by
  intro piece id other twin arises arisesOther different placeable placeableTwin
  by_cases shelves : piece.shelf? = other.shelf?
  · cases on : piece.shelf? with
    | some shelf =>
      obtain rfl := Piece.shelf_inj on (shelves ▸ on)
      rw [Piece.place_of_shelf on, Piece.place_of_shelf on]
      exact places shelf id twin (arises.onShelf on) (arisesOther.onShelf on) different placeable
        placeableTwin
    | none =>
      obtain ⟨index, rfl⟩ := Piece.step_of_shelf on
      obtain ⟨position, rfl⟩ := Piece.step_of_shelf (shelves ▸ on)
      have behind : ∀ {name index}, (Piece.step index).Positioned →
          ((Piece.step index).place settings name).components =
            (stepsPlace settings.target name).components ++
              [Piece.stepName index].map Component.named :=
        fun positioned => Path.components_child _ (Piece.isName_step positioned)
      have clear := Path.Clear.behind (behind arisesOther.position)
        (steps twin id arisesOther.needed arises.needed (Ne.symm different))
        (steps id twin arises.needed arisesOther.needed different)
      intro member
      refine clear.way member ?_
      rw [Path.goal_of_names _ (behind arises.position)]
      exact List.prefix_append _ _
  · exact separate.shelves_apart placeable arises.position placeableTwin arisesOther.position shelves

/-- A piece is not above another, nor above itself. -/
theorem PiecesApart.not_above (apart : PiecesApart settings remote disk)
    (separate : Separate settings disk.current) {twin : String}
    (arises : Piece.Arises settings remote disk piece id)
    (arisesOther : Piece.Arises settings remote disk other twin) (placeable : Placeable id)
    (placeableTwin : Placeable twin) (some_ : other = .log → ObjectName.segments "log" twin ≠ []) :
    (piece.place settings id).goal disk.current ∉
      (other.place settings twin).above disk.current := by
  have ends : (other.place settings twin).EndsInName :=
    Piece.endsInName placeableTwin arisesOther.position some_
  by_cases sameId : id = twin
  · subst sameId
    by_cases same : piece = other
    · subst same
      exact separate.not_above placeable arises.position some_
    · exact fun above => separate.pieces_apart placeable arises.position arisesOther.position same
        ((Path.mem_way_iff_above ends).2 (Or.inl above))
  · exact fun above => apart piece id other twin arises arisesOther sameId placeable placeableTwin
      ((Path.mem_way_iff_above ends).2 (Or.inl above))

/-- Different pieces have different places. -/
theorem PiecesApart.distinct (apart : PiecesApart settings remote disk)
    (separate : Separate settings disk.current) {twin : String}
    (arises : Piece.Arises settings remote disk piece id)
    (arisesOther : Piece.Arises settings remote disk other twin) (placeable : Placeable id)
    (placeableTwin : Placeable twin) (some_ : other = .log → ObjectName.segments "log" twin ≠ [])
    (same : (piece.place settings id).goal disk.current =
      (other.place settings twin).goal disk.current) : piece = other ∧ id = twin := by
  have ends : (other.place settings twin).EndsInName :=
    Piece.endsInName placeableTwin arisesOther.position some_
  have onWay : (piece.place settings id).goal disk.current ∈
      (other.place settings twin).way disk.current := by
    rw [same]
    exact Path.goal_mem_way ends disk.current
  by_cases sameId : id = twin
  · subst sameId
    refine ⟨?_, rfl⟩
    by_contra different
    exact separate.pieces_apart placeable arises.position arisesOther.position different onWay
  · exact absurd onWay (apart piece id other twin arises arisesOther sameId placeable placeableTwin)

end Build

end EoAssembly
