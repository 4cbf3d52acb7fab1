import EoAssembly.Proofs.Build.Places

/-!
Contract: the directories of a build don't get in each other's way.

A build reads and writes in five directories: those of documents, of optimized
documents and of pulled sources below its target, that of the provenance logs,
and that of the sources.  A file in one of them is reached without passing
another; the results of single passes and the catalog files are in none.

Owns `Path.Clear`, `Separate`, and what it says about every file of a build.
-/

namespace EoAssembly

open Path (Component IsName Names)

namespace Path

/-- Nothing that a path reaches is where another leads or below. -/
def Clear (current : Location) (path base : Path) : Prop :=
  ∀ reached, reached = path.goal current ∨ reached ∈ path.way current →
    ¬base.goal current <+: reached

/-- Nothing on the way of a path is below where it leads. -/
def Direct (current : Location) (path : Path) : Prop :=
  ∀ reached ∈ path.way current, path.goal current <+: reached → reached = path.goal current

instance (current : Location) (path base : Path) : Decidable (path.Clear current base) :=
  decidable_of_iff (¬base.goal current <+: path.goal current ∧
    ∀ reached ∈ path.way current, ¬base.goal current <+: reached)
    ⟨fun ⟨goal, way⟩ reached here => here.elim (fun same => same ▸ goal) (way reached),
      fun clear => ⟨clear _ (Or.inl rfl), fun reached member => clear reached (Or.inr member)⟩⟩

instance (current : Location) (path : Path) : Decidable (path.Direct current) :=
  inferInstanceAs (Decidable (∀ reached ∈ path.way current, _))

section Clear

variable {current : Location} {path directory base : Path}

theorem Clear.goal (clear : path.Clear current base) :
    ¬base.goal current <+: path.goal current :=
  clear _ (Or.inl rfl)

theorem Clear.way (clear : path.Clear current base) {reached : Location}
    (member : reached ∈ path.way current) : ¬base.goal current <+: reached :=
  clear _ (Or.inr member)

/-- What a path reaches behind names of a directory is on its way there or below. -/
theorem reached_behind {names : List String} {reached : Location}
    (behind : path.components = directory.components ++ names.map Component.named)
    (here : reached = path.goal current ∨ reached ∈ path.way current) :
    reached ∈ directory.way current ∨
      ∃ front, front <+: names ∧ reached = directory.goal current ++ front := by
  rcases here with atGoal | onWay
  · rw [goal_of_names current behind] at atGoal
    exact Or.inr ⟨names, List.prefix_rfl, atGoal⟩
  · rcases (mem_way_of_names current behind).1 onWay with before | ⟨front, _, first, same⟩
    · exact Or.inl before
    · exact Or.inr ⟨front, first, same⟩

/-- Names behind a directory stay clear of what the directory is apart from. -/
theorem Clear.behind {names : List String}
    (behind : path.components = directory.components ++ names.map Component.named)
    (clear : directory.Clear current base) (back : base.Clear current directory) :
    path.Clear current base := by
  intro reached here below
  rcases reached_behind behind here with before | ⟨front, _, same⟩
  · exact clear.way before below
  · rw [same] at below
    rcases List.prefix_or_prefix_of_prefix below (List.prefix_append _ front) with wrong | wrong
    · exact clear.goal wrong
    · exact back.goal wrong

/-- What is apart from a directory is apart from all below it. -/
theorem Clear.below {names : List String}
    (behind : base.components = directory.components ++ names.map Component.named)
    (clear : path.Clear current directory) : path.Clear current base := by
  intro reached here below
  rw [goal_of_names current behind] at below
  exact clear reached here ((List.prefix_append _ names).trans below)

end Clear

end Path

namespace Build

open ObjectName (IsExtension Placeable place segments)

/-- The directories of a build are apart, and the ways to the target and to the
protocols don't lead below them. -/
structure Separate (settings : Settings) (current : Location) : Prop where
  targetProtocols : settings.target.Clear current settings.protocols
  protocolsTarget : settings.protocols.Clear current settings.target
  targetSources : settings.target.Clear current settings.sources
  sourcesTarget : settings.sources.Clear current settings.target
  protocolsSources : settings.protocols.Clear current settings.sources
  sourcesProtocols : settings.sources.Clear current settings.protocols
  directTarget : settings.target.Direct current
  directProtocols : settings.protocols.Direct current

/-- The directories that a build reads files from. -/
inductive Shelf where
  | parsed
  | optimized
  | pulled
  | logs
  | sources
  deriving DecidableEq

/-- Where a shelf is. -/
def Shelf.directory (settings : Settings) : Shelf → Path
  | .parsed => settings.target.child parsedDirectory
  | .optimized => settings.target.child optimizedDirectory
  | .pulled => settings.target.child pulledDirectory
  | .logs => settings.protocols
  | .sources => settings.sources

/-- The name of a shelf in the target. -/
def Shelf.name? : Shelf → Option String
  | .parsed => some parsedDirectory
  | .optimized => some optimizedDirectory
  | .pulled => some pulledDirectory
  | .logs => none
  | .sources => none

section Shelves

variable {settings : Settings} {current : Location} {shelf other : Shelf}

theorem Shelf.components_of_name {name : String} (named : shelf.name? = some name) :
    (shelf.directory settings).components =
      settings.target.components ++ [name].map Component.named := by
  cases shelf with
  | parsed => rw [← Option.some.inj named]; exact Path.components_child _ isName_parsed
  | optimized => rw [← Option.some.inj named]; exact Path.components_child _ isName_optimized
  | pulled => rw [← Option.some.inj named]; exact Path.components_child _ isName_pulled
  | logs => exact absurd named (by simp [Shelf.name?])
  | sources => exact absurd named (by simp [Shelf.name?])

/-- What lies in the target under another name than a shelf is not on the shelf. -/
theorem Separate.not_on_shelf (separate : Separate settings current) {reached : Location}
    (here : reached ∈ settings.target.way current ∨
      ∃ first rest, reached = settings.target.goal current ++ first :: rest ∧
        shelf.name? ≠ some first) :
    ¬(shelf.directory settings).goal current <+: reached := by
  intro below
  cases named : shelf.name? with
  | some name =>
    rw [Path.goal_of_names current (shelf.components_of_name named)] at below
    rcases here with onWay | ⟨first, rest, same, different⟩
    · have itself := separate.directTarget reached onWay ((List.prefix_append _ _).trans below)
      rw [itself] at below
      have short := below.length_le
      simp only [List.length_append, List.length_singleton] at short
      omega
    · rw [same, List.prefix_append_right_inj] at below
      exact different (by rw [named, (List.cons_prefix_cons.1 below).1])
  | none =>
    have apart : ∀ directory : Path, settings.target.Clear current directory →
        directory.Clear current settings.target → ¬directory.goal current <+: reached := by
      intro directory clear back below
      rcases here with onWay | ⟨first, rest, same, _⟩
      · exact clear.way onWay below
      · rw [same] at below
        rcases List.prefix_or_prefix_of_prefix below (List.prefix_append _ _) with wrong | wrong
        · exact clear.goal wrong
        · exact back.goal wrong
    cases shelf with
    | logs => exact apart _ separate.targetProtocols separate.protocolsTarget below
    | sources => exact apart _ separate.targetSources separate.sourcesTarget below
    | parsed => exact absurd named (by simp [Shelf.name?])
    | optimized => exact absurd named (by simp [Shelf.name?])
    | pulled => exact absurd named (by simp [Shelf.name?])

/-- A path behind a name in the target is clear of every shelf of another name. -/
theorem Separate.clear_behind (separate : Separate settings current) {path : Path} {first : String}
    {names : List String} (behind : path.components =
      settings.target.components ++ (first :: names).map Component.named)
    (different : shelf.name? ≠ some first) :
    path.Clear current (shelf.directory settings) := by
  intro reached here
  refine separate.not_on_shelf ?_
  rcases here with atGoal | onWay
  · rw [Path.goal_of_names current behind] at atGoal
    exact Or.inr ⟨first, names, atGoal, different⟩
  · rcases (Path.mem_way_of_names current behind).1 onWay with before | ⟨front, some_, starts, same⟩
    · exact Or.inl before
    · obtain ⟨head, rest, split⟩ := List.exists_cons_of_ne_nil some_
      rw [split] at starts same
      rw [(List.cons_prefix_cons.1 starts).1] at same
      exact Or.inr ⟨first, rest, same, different⟩

/-- A path behind names in the protocols is clear of every other shelf. -/
theorem Separate.clear_logs (separate : Separate settings current) {path : Path}
    {names : List String}
    (behind : path.components = settings.protocols.components ++ names.map Component.named)
    (different : shelf ≠ .logs) : path.Clear current (shelf.directory settings) := by
  cases named : shelf.name? with
  | some name =>
    have components : (shelf.directory settings).components =
        settings.target.components ++ [name].map Component.named := shelf.components_of_name named
    exact .behind behind (.below components separate.protocolsTarget)
      (.behind components separate.targetProtocols separate.protocolsTarget)
  | none =>
    cases shelf with
    | logs => exact absurd rfl different
    | sources => exact .behind behind separate.protocolsSources separate.sourcesProtocols
    | parsed => exact absurd named (by simp [Shelf.name?])
    | optimized => exact absurd named (by simp [Shelf.name?])
    | pulled => exact absurd named (by simp [Shelf.name?])

/-- The extension of the files on a shelf. -/
def Shelf.extension : Shelf → String
  | .parsed => documentExtension
  | .optimized => documentExtension
  | .pulled => "eo"
  | .logs => "log"
  | .sources => sourceExtension

/-- The file of an object on a shelf. -/
def Shelf.file (settings : Settings) (shelf : Shelf) (id : String) : Path :=
  place id (shelf.directory settings) shelf.extension

theorem Shelf.isExtension (shelf : Shelf) : IsExtension shelf.extension := by
  cases shelf <;> decide

theorem Shelf.name?_inj {name : String} (here : shelf.name? = some name)
    (there : other.name? = some name) : shelf = other := by
  have same : shelf.name? = other.name? := here.trans there.symm
  have some_ : shelf.name? ≠ none := by rw [here]; simp
  clear here there
  revert same some_
  cases shelf <;> cases other <;> decide

section File

variable {id : String} (placeable : Placeable id)

include placeable

theorem Shelf.components_file (settings : Settings) (shelf : Shelf) :
    (shelf.file settings id).components = (shelf.directory settings).components ++
      (segments shelf.extension id).map Component.named :=
  ObjectName.components_place shelf.isExtension.noSlash placeable _

theorem Shelf.goal_file (settings : Settings) (current : Location) (shelf : Shelf) :
    (shelf.file settings id).goal current =
      (shelf.directory settings).goal current ++ segments shelf.extension id :=
  Path.goal_of_names current (shelf.components_file placeable settings)

theorem Shelf.below_directory (settings : Settings) (current : Location) (shelf : Shelf) :
    (shelf.directory settings).goal current <+: (shelf.file settings id).goal current := by
  rw [shelf.goal_file placeable]
  exact List.prefix_append _ _

/-- A file on one shelf is clear of the others. -/
theorem Separate.file_clear (separate : Separate settings current) (notSources : shelf ≠ .sources)
    (different : other ≠ shelf) :
    (shelf.file settings id).Clear current (other.directory settings) := by
  have behind := shelf.components_file placeable settings
  cases named : shelf.name? with
  | some name =>
    rw [shelf.components_of_name named, List.append_assoc, ← List.map_append] at behind
    exact separate.clear_behind behind fun same => different (Shelf.name?_inj same named)
  | none =>
    cases shelf with
    | logs => exact separate.clear_logs behind different
    | sources => exact absurd rfl notSources
    | parsed => exact absurd named (by simp [Shelf.name?])
    | optimized => exact absurd named (by simp [Shelf.name?])
    | pulled => exact absurd named (by simp [Shelf.name?])

/-- A path to a file in the target leaves what the path to the target leaves. -/
theorem Shelf.left_file {name : String} (named : shelf.name? = some name) :
    (shelf.file settings id).left current = settings.target.left current := by
  have behind := shelf.components_file placeable settings
  rw [shelf.components_of_name named, List.append_assoc, ← List.map_append] at behind
  exact Path.left_of_names current behind

theorem Shelf.endsInName_file {name : String} (named : shelf.name? = some name) :
    (shelf.file settings id).EndsInName := by
  refine ObjectName.endsInName_place shelf.isExtension.noSlash placeable ?_
  cases shelf with
  | parsed => exact Path.endsInName_child _ isName_parsed
  | optimized => exact Path.endsInName_child _ isName_optimized
  | pulled => exact Path.endsInName_child _ isName_pulled
  | logs => exact absurd named (by simp [Shelf.name?])
  | sources => exact absurd named (by simp [Shelf.name?])

end File

end Shelves

/-! ## Results of single passes -/

/-- A name of a file that no shelf has. -/
structure IsStep (file : String) : Prop where
  plain : IsName file
  noShelf : ∀ shelf : Shelf, shelf.name? ≠ some file

/-- The result of a pass for an object is behind names in the directory of these
results, where a dotted version may lead back from the last of them. -/
theorem components_step {id file : String} (placeable : Placeable id) (plain : IsName file)
    (target : Path) :
    ∃ front last, ((stepsPlace target id).child file).components =
      target.components ++ (stepsDirectory :: front).map Component.named ++
        ((Path.componentOf last).toList ++ [.named file]) := by
  have directory := Path.endsInName_child target isName_steps
  have named : Path.componentOf file = some (.named file) := plain.names
  have whole : place id (target.child stepsDirectory) documentExtension =
      ⟨target.base ++ stepsDirectory :: segments documentExtension id⟩ := by
    rw [ObjectName.place_segments isExtension_document.noSlash placeable directory,
      Path.child_name target isName_steps, List.append_assoc]
    rfl
  have child : ∀ (before : List String) (last : String), last ≠ "" →
      (⟨before ++ [last]⟩ : Path).child file = ⟨before ++ [last, file]⟩ := by
    intro before last some_
    rw [Path.child_name _ plain]
    unfold Path.base
    rw [List.getLast?_concat, if_neg fun empty => some_ (Option.some.inj empty), List.append_assoc]
    rfl
  unfold stepsPlace
  rw [whole]
  have names := ObjectName.segments_names isExtension_document.noSlash placeable
  rcases List.eq_nil_or_concat (segments documentExtension id) with none | ⟨front, last, split⟩
  · refine ⟨[], "", ?_⟩
    rw [none, Path.withoutExtension_of_name isName_steps.names, child _ _ (by decide)]
    have same : Path.stem stepsDirectory = stepsDirectory := by decide
    have silent : Path.componentOf "" = Option.none := by decide
    rw [same, Path.components_base_cons target isName_steps.names, List.filterMap_cons, named,
      silent]
    simp
  · rw [List.concat_eq_append] at split
    rw [split] at names ⊢
    have lastName := (names last (by simp)).names
    refine ⟨front, Path.stem last, ?_⟩
    have regroup : target.base ++ stepsDirectory :: (front ++ [last]) =
        (target.base ++ stepsDirectory :: front) ++ [last] := by simp
    rw [regroup, Path.withoutExtension_of_name lastName,
      child _ _ (Path.stem_ne_empty lastName.ne_empty), List.append_assoc, List.cons_append,
      Path.components_base_cons target isName_steps.names, List.filterMap_append,
      Path.filterMap_names fun name member => (names name (by simp [member])).names]
    have tail : [Path.stem last, file].filterMap Path.componentOf =
        (Path.componentOf (Path.stem last)).toList ++ [.named file] := by
      rw [List.filterMap_cons, List.filterMap_cons, named]
      cases Path.componentOf (Path.stem last) <;> rfl
    rw [tail]
    simp

theorem componentOf_cases (segment : String) :
    Path.componentOf segment = none ∨ Path.componentOf segment = some .up ∨
      Path.componentOf segment = some (.named segment) := by
  unfold Path.componentOf
  split
  · exact Or.inl rfl
  · split
    · exact Or.inr (Or.inl rfl)
    · exact Or.inr (Or.inr rfl)

/-- A file behind a directory in the target, or behind the way back from it, is in the
target under the name of the directory or under its own. -/
theorem reached_step {base reached : Location} {first file last : String} {front : List String}
    (here : reached = Path.goalFrom (base ++ first :: front)
        ((Path.componentOf last).toList ++ [.named file]) ∨
      reached ∈ Path.wayFrom (base ++ first :: front)
        ((Path.componentOf last).toList ++ [.named file])) :
    ∃ name rest, reached = base ++ name :: rest ∧ (name = first ∨ name = file) := by
  rcases componentOf_cases last with none | up | named
  · have same : reached = base ++ first :: front ++ [file] := by
      simpa [none, Path.goalFrom, Path.wayFrom] using here
    exact ⟨first, front ++ [file], by simp [same], Or.inl rfl⟩
  · have same : reached = (base ++ first :: front).dropLast ++ [file] := by
      simpa [up, Path.goalFrom, Path.wayFrom] using here
    rcases List.eq_nil_or_concat front with empty | ⟨before, other, split⟩
    · rw [empty, List.dropLast_concat] at same
      exact ⟨file, [], same, Or.inr rfl⟩
    · rw [List.concat_eq_append] at split
      have regroup : base ++ first :: (before ++ [other]) = (base ++ first :: before) ++ [other] := by
        simp
      rw [split, regroup, List.dropLast_concat] at same
      exact ⟨first, before ++ [file], by simp [same], Or.inl rfl⟩
  · have same : reached = base ++ first :: front ++ [last] ++ [file] ∨
        reached = base ++ first :: front ++ [last] := by
      simp only [named, Option.toList, List.singleton_append, Path.goalFrom, Path.wayFrom,
        List.mem_cons, List.not_mem_nil, or_false] at here
      rcases here with atGoal | onWay | atGoal
      · exact Or.inl atGoal
      · exact Or.inr onWay
      · exact Or.inl atGoal
    rcases same with same | same
    · exact ⟨first, front ++ [last, file], by simp [same], Or.inl rfl⟩
    · exact ⟨first, front ++ [last], by simp [same], Or.inl rfl⟩

/-- The results of passes are on no shelf. -/
theorem Separate.step_clear {settings : Settings} {current : Location} {shelf : Shelf}
    (separate : Separate settings current) {id file : String} (placeable : Placeable id)
    (isStep : IsStep file) :
    ((stepsPlace settings.target id).child file).Clear current (shelf.directory settings) := by
  obtain ⟨front, last, components⟩ := components_step placeable isStep.plain settings.target
  have noSteps : shelf.name? ≠ some stepsDirectory := by cases shelf <;> decide
  have directory : Path.goalFrom current
      (settings.target.components ++ (stepsDirectory :: front).map Component.named) =
      settings.target.goal current ++ stepsDirectory :: front := by
    rw [Path.goalFrom_append, Path.goalFrom_names]
    rfl
  intro reached here
  refine separate.not_on_shelf ?_
  unfold Path.goal Path.way at here
  rw [components, Path.goalFrom_append, Path.wayFrom_append, List.mem_append, directory,
    Path.wayFrom_append, List.mem_append] at here
  have steps : (∃ name rest, reached = settings.target.goal current ++ name :: rest ∧
      (name = stepsDirectory ∨ name = file)) → ∃ name rest,
      reached = settings.target.goal current ++ name :: rest ∧ shelf.name? ≠ some name := by
    rintro ⟨name, rest, same, either⟩
    refine ⟨name, rest, same, ?_⟩
    rcases either with isSteps | isFile
    · rw [isSteps]
      exact noSteps
    · rw [isFile]
      exact isStep.noShelf shelf
  rcases here with atGoal | (onWay | inDirectory) | behind
  · exact Or.inr (steps (reached_step (Or.inl atGoal)))
  · exact Or.inl onWay
  · obtain ⟨names, some_, starts, same⟩ := Path.mem_wayFrom_names.1 inDirectory
    obtain ⟨head, rest, split⟩ := List.exists_cons_of_ne_nil some_
    rw [split] at starts same
    rw [(List.cons_prefix_cons.1 starts).1] at same
    exact Or.inr (steps ⟨stepsDirectory, rest, same, Or.inl rfl⟩)
  · exact Or.inr (steps (reached_step (Or.inr behind)))

/-- The names of the results of all passes. -/
theorem isStep_all : ∀ item ∈ Pass.all.zipIdx, IsStep (Pass.stepFile item.2 item.1) := by
  have names : ∀ item ∈ Pass.all.zipIdx, IsName (Pass.stepFile item.2 item.1) ∧
      ∀ shelf ∈ [Shelf.parsed, .optimized, .pulled, .logs, .sources],
        shelf.name? ≠ some (Pass.stepFile item.2 item.1) := by decide +kernel
  intro item member
  obtain ⟨plain, noShelf⟩ := names item member
  exact ⟨plain, fun shelf => noShelf shelf (by cases shelf <;> simp)⟩

end Build

end EoAssembly
