import EoAssembly.Proofs.Build.Keeping

/-!
Contract: where a build writes files, and that it may.

The places of stages lead into the target and the logs into the protocols, so none of
them is a catalog file; and only the stage of optimized documents writes where these are.

Owns `Beside` and `Unread` for every place of a build.
-/

namespace EoAssembly.Build

open ObjectName (Placeable Storable)
open Path (IsName Component)

variable {grounds : Grounds} {id : String} {path : Path}

/-! ## Files beside the catalogs -/

/-- A path inside the target may be written. -/
theorem beside_inside (firm : grounds.Firm) (inside : path.Inside grounds.current grounds.target)
    (slashless : path.Slashless) (ends : grounds.strict → path.EndsInName) : Beside grounds path where
  slashless := slashless
  apart file member := inside.not_catalog member
  ends := ends
  clear saving := by
    refine ⟨fun reached here => Grounds.outside_sources firm saving ?_, fun file member onWay => ?_⟩
    · rcases here with atGoal | onWay
      · rw [atGoal]
        exact Or.inr inside.below
      · refine (inside.way reached onWay).imp_right ?_
        rintro ⟨behind, same, _⟩
        rw [same]
        exact List.prefix_append _ _
    · rcases inside.way _ onWay with before | ⟨behind, same, first⟩
      · have itself := (firm.separate saving).directTarget _ before (List.prefix_append _ [file])
        have wrong : grounds.target.goal grounds.current ++ [file] =
            grounds.target.goal grounds.current := itself
        simp at wrong
      · have isFile : [file] = behind := List.append_cancel_left same
        rw [← isFile] at first
        exact first file rfl member

theorem slashless_place (firm : grounds.Firm) (directory id extension : String) :
    (ObjectName.place id (grounds.target.child directory) extension).Slashless :=
  (Path.isText_iff.1 (isText_place (firm.target.child directory) id extension)).2

theorem beside_parsed (firm : grounds.Firm) (storable : Storable id)
    (placeable : grounds.strict → Placeable id) : Beside grounds (parsedPlace grounds.target id) :=
  beside_inside firm (inside_parsedPlace storable grounds.target grounds.current)
    (slashless_place firm _ _ _) fun strict =>
      endsInName_stage isName_parsed isExtension_document (placeable strict) grounds.target

theorem beside_optimized (firm : grounds.Firm) (storable : Storable id)
    (placeable : grounds.strict → Placeable id) :
    Beside grounds (optimizedPlace grounds.target id) :=
  beside_inside firm (inside_optimizedPlace storable grounds.target grounds.current)
    (slashless_place firm _ _ _) fun strict =>
      Grounds.endsInName_optimizedPlace (placeable strict) grounds.target

theorem beside_pulled (firm : grounds.Firm) (placeable : Placeable id) :
    Beside grounds (pulledPlace grounds.target id) :=
  beside_inside firm (inside_pulledPlace placeable.storable grounds.target grounds.current)
    (slashless_place firm _ _ _) fun _ =>
      endsInName_stage isName_pulled isExtension_source placeable grounds.target

theorem beside_step (firm : grounds.Firm) (storable : Storable id) {file : String}
    (plain : IsName file) (noCatalog : file ∉ catalogFiles) :
    Beside grounds ((stepsPlace grounds.target id).child file) :=
  beside_inside firm (inside_step storable plain noCatalog grounds.target grounds.current)
    (Path.slashless_child (Path.slashless_withoutExtension (slashless_place firm _ _ _)) file)
    fun _ => endsInName_step plain grounds.target

theorem components_log (placeable : Placeable id) (protocols : Path) :
    (logPlace protocols id).components =
      protocols.components ++ (ObjectName.segments "log" id).map Component.named :=
  ObjectName.components_place isExtension_log.noSlash placeable protocols

/-- The log of an object whose name has a file of its own. -/
theorem endsInName_logPlace (placeable : Placeable id) (some_ : ObjectName.segments "log" id ≠ [])
    (protocols : Path) : (logPlace protocols id).EndsInName := by
  have names := ObjectName.placeParts_names placeable.parts false
  unfold logPlace
  rw [ObjectName.place_eq]
  by_cases none : ObjectName.placeParts false (Text.splitAll '.' (ObjectName.split id).1) = []
  · rw [none]
    unfold ObjectName.versionedIn
    cases version : (ObjectName.split id).2 with
    | none =>
      unfold ObjectName.segments at some_
      rw [none, version] at some_
      exact absurd rfl some_
    | some tag => exact Path.endsInName_child protocols (placeable.version tag (by simp [version]))
  · exact (ObjectName.placeBelow_eq isExtension_log.noSlash names _).2 none

theorem beside_log (firm : grounds.Firm) (placeable : Placeable id)
    (some_ : ObjectName.segments "log" id ≠ []) :
    Beside grounds (logPlace grounds.protocols id) := by
  have components := components_log placeable grounds.protocols
  refine ⟨(Path.isText_iff.1 (isText_place firm.protocols _ _)).2, fun file _ same => ?_,
    fun _ => endsInName_logPlace placeable some_ grounds.protocols, fun saving => ⟨?_, ?_⟩⟩
  · rw [Path.goal_of_names grounds.current components] at same
    have below : grounds.protocols.goal grounds.current <+: grounds.spot file := by
      rw [← same]
      exact List.prefix_append _ _
    rcases List.prefix_or_prefix_of_prefix below (List.prefix_append _ [file]) with wrong | wrong
    · exact firm.back wrong
    · exact firm.apart wrong
  · have separate := firm.separate saving
    exact fun reached here => Path.Clear.behind components separate.protocolsSources
      separate.sourcesProtocols reached here
  · have separate := firm.separate saving
    intro file _ onWay
    have clear := Path.Clear.behind components separate.protocolsTarget separate.targetProtocols
    exact clear.way onWay (List.prefix_append _ [file])

/-! ## Places that hold no optimized document -/

theorem goal_optimizedPlace (placeable : Placeable id) (target : Path) (current : Location) :
    (optimizedPlace target id).goal current =
      target.goal current ++ optimizedDirectory :: ObjectName.segments documentExtension id :=
  Path.goal_of_names current (components_stage isName_optimized isExtension_document placeable target)

/-- No optimized document is in the target under another name than that of its stage. -/
theorem unread_of_first {first : String} {rest : List String} {disk : Disk}
    (goal : grounds.strict →
      path.goal grounds.current = grounds.target.goal grounds.current ++ first :: rest)
    (other : first ≠ optimizedDirectory) : Unread grounds path disk := by
  intro strict twin placeable same
  rw [goal strict, goal_optimizedPlace placeable, List.append_cancel_left_eq] at same
  exact absurd (List.cons.inj same).1.symm other

theorem unread_parsed (placeable : grounds.strict → Placeable id) {disk : Disk} :
    Unread grounds (parsedPlace grounds.target id) disk :=
  unread_of_first (fun strict => Path.goal_of_names _
    (components_stage isName_parsed isExtension_document (placeable strict) _)) (by decide)

theorem unread_pulled (placeable : Placeable id) {disk : Disk} :
    Unread grounds (pulledPlace grounds.target id) disk :=
  unread_of_first (fun _ => Path.goal_of_names _
    (components_stage isName_pulled isExtension_source placeable _)) (by decide)

theorem unread_log (firm : grounds.Firm) (placeable : Placeable id) {disk : Disk} :
    Unread grounds (logPlace grounds.protocols id) disk := by
  intro _ twin placeableTwin same
  have below : grounds.protocols.goal grounds.current <+:
      (optimizedPlace grounds.target twin).goal grounds.current := by
    rw [same, Path.goal_of_names grounds.current (components_log placeable grounds.protocols)]
    exact List.prefix_append _ _
  rw [goal_optimizedPlace placeableTwin] at below
  rcases List.prefix_or_prefix_of_prefix below (List.prefix_append _ _) with wrong | wrong
  · exact absurd wrong firm.back
  · exact absurd wrong firm.apart

/-- The result of a pass is in the target under the name of its stage or its own. -/
theorem goal_step {file : String} (placeable : Placeable id) (plain : IsName file) (target : Path)
    (current : Location) : ∃ first rest, ((stepsPlace target id).child file).goal current =
      target.goal current ++ first :: rest ∧ (first = stepsDirectory ∨ first = file) := by
  obtain ⟨front, last, components⟩ := components_step placeable plain target
  have directory : Path.goalFrom current
      (target.components ++ (stepsDirectory :: front).map Component.named) =
        target.goal current ++ stepsDirectory :: front := by
    rw [Path.goalFrom_append, Path.goalFrom_names]
    rfl
  have goal : ((stepsPlace target id).child file).goal current =
      Path.goalFrom (target.goal current ++ stepsDirectory :: front)
        ((Path.componentOf last).toList ++ [.named file]) := by
    rw [← directory, ← Path.goalFrom_append, ← components]
    rfl
  exact reached_step (Or.inl goal)

/-- The result of a pass is not where an optimized document is. -/
theorem step_ne_optimized {file : String} (placeable : Placeable id) (isStep : IsStep file)
    {twin : String} (placeableTwin : Placeable twin) (target : Path) (current : Location) :
    ((stepsPlace target id).child file).goal current ≠ (optimizedPlace target twin).goal current := by
  obtain ⟨first, rest, goal, either⟩ := goal_step placeable isStep.plain target current
  rw [goal, goal_optimizedPlace placeableTwin]
  intro same
  have isFirst := (List.cons.inj (List.append_cancel_left same)).1
  rcases either with isSteps | isFile
  · rw [isSteps] at isFirst
    exact absurd isFirst (by decide)
  · rw [isFile] at isFirst
    exact isStep.noShelf .optimized (by rw [isFirst]; rfl)

end EoAssembly.Build
