import EoAssembly.Proofs.Build.References
import EoAssembly.Proofs.Build.Separate
import EoAssembly.Proofs.Catalog.Update

/-!
Contract: what stands at the places of the objects of a project.

When the directories of a build are apart and no place of an object is inside
that of another, the shelves of a build are a table: a write to one place changes
one row, and a catalog that is persisted or the result of a pass changes none.

Owns `OnShelf`, `PlacesApart`, and `Shelved` with its operations.
-/

namespace EoAssembly.Build

open Disk (Touches)
open ObjectName (Placeable)

/-- The objects that a project needs. -/
def IsNeeded (settings : Settings) (remote : Remote) (disk : Disk) (id : String) : Prop :=
  Needed (registeredIds settings disk) (references settings remote disk) id

/-- The objects with a place on a shelf: pulled sources and logs are those of objects
that no file registers. -/
def OnShelf (settings : Settings) (remote : Remote) (disk : Disk) (shelf : Shelf) (id : String) :
    Prop :=
  match shelf with
  | .parsed => IsNeeded settings remote disk id
  | .optimized => IsNeeded settings remote disk id
  | .pulled => IsNeeded settings remote disk id ∧ id ∉ registeredIds settings disk
  | .logs => IsNeeded settings remote disk id ∧ id ∉ registeredIds settings disk
  | .sources => False

/-- On every shelf the places of different objects are distinct, and none is inside
another. -/
def PlacesApart (settings : Settings) (remote : Remote) (disk : Disk) : Prop :=
  ∀ shelf id other, OnShelf settings remote disk shelf id →
    OnShelf settings remote disk shelf other → id ≠ other → Placeable id → Placeable other →
    (shelf.file settings id).goal disk.current ∉ (shelf.file settings other).way disk.current

variable {settings : Settings} {remote : Remote} {start before after : Disk}
  {paths : List Path} {content : Shelf → String → Option String} {shelf other : Shelf}
  {id text : String}

theorem OnShelf.not_sources (on : OnShelf settings remote start shelf id) : shelf ≠ .sources := by
  intro same
  rw [same] at on
  exact on

/-- The file of an object is not on the way to another one. -/
theorem goal_not_on_way {twin : String} (separate : Separate settings start.current)
    (apart : PlacesApart settings remote start) (on : OnShelf settings remote start shelf id)
    (onOther : OnShelf settings remote start other twin) (placeable : Placeable id)
    (placeableTwin : Placeable twin) (different : ¬(other = shelf ∧ twin = id)) :
    (other.file settings twin).goal start.current ∉ (shelf.file settings id).way start.current := by
  by_cases same : other = shelf
  · rw [same] at onOther different ⊢
    exact apart shelf twin id onOther on (fun sameId => different ⟨rfl, sameId⟩) placeableTwin
      placeable
  · intro member
    have clear := separate.file_clear placeable on.not_sources same
    exact clear.way member (other.below_directory placeableTwin settings start.current)

/-- A table with one more row. -/
def shelvedAt (shelf : Shelf) (id text : String) (content : Shelf → String → Option String) :
    Shelf → String → Option String :=
  fun other twin => if other = shelf ∧ twin = id then some text else content other twin

/-- A disk where the shelves of a build stand as a table says, and the sources as on the
disk it started with, and where some paths lead through directories only. -/
structure Shelved (settings : Settings) (remote : Remote) (start : Disk) (paths : List Path)
    (content : Shelf → String → Option String) (disk : Disk) : Prop where
  sound : disk.Sound
  current : disk.current = start.current
  sources : ∀ location, settings.sources.goal start.current <+: location →
    disk.entryAt? location = start.entryAt? location
  passable : ∀ path ∈ paths, disk.Passable path
  stands : ∀ shelf id, OnShelf settings remote start shelf id → Placeable id →
    disk.entryAt? ((shelf.file settings id).goal start.current) =
      (content shelf id).map fun text => .file (.text text)

namespace Shelved

/-- A path that leads through directories only keeps doing so. -/
theorem reach {path : Path} (shelved : Shelved settings remote start paths content before)
    (passable : before.Passable path) :
    Shelved settings remote start (path :: paths) content before := by
  refine ⟨shelved.sound, shelved.current, shelved.sources, fun other member => ?_, shelved.stands⟩
  rcases List.mem_cons.1 member with here | there
  · rw [here]
    exact passable
  · exact shelved.passable other there

/-- A write beside the shelves changes no row. -/
theorem beside {written gone made : List Location}
    (shelved : Shelved settings remote start paths content before)
    (touches : Touches written gone made before after)
    (free : ∀ shelf : Shelf, ∀ reached, reached ∈ written ∨ reached ∈ gone ∨ reached ∈ made →
      ¬(shelf.directory settings).goal start.current <+: reached) :
    Shelved settings remote start paths content after := by
  have same : ∀ (shelf : Shelf) location,
      (shelf.directory settings).goal start.current <+: location →
      after.entryAt? location = before.entryAt? location := by
    intro shelf location below
    rcases touches.others location (fun member => free shelf location (Or.inl member) below)
      (fun member => free shelf location (Or.inr (Or.inl member)) below) with same | ⟨member, _⟩
    · exact same
    · exact absurd below (free shelf location (Or.inr (Or.inr member)))
  refine ⟨touches.sound, touches.current.trans shelved.current, ?_, ?_, ?_⟩
  · intro location below
    rw [same .sources location below]
    exact shelved.sources location below
  · exact fun path member => touches.passable (shelved.passable path member)
  · intro shelf id on placeable
    rw [same shelf _ (shelf.below_directory placeable settings start.current)]
    exact shelved.stands shelf id on placeable

/-- A file that is written clear of the shelves changes no row. -/
theorem write_clear {path : Path} (shelved : Shelved settings remote start paths content before)
    (clear : ∀ shelf : Shelf, path.Clear start.current (shelf.directory settings))
    (ran : Document.writeBelow before path text = (.ok (), after)) :
    Shelved settings remote start paths content after := by
  obtain ⟨_, _, touches, _⟩ := Document.writeBelow_ok shelved.sound ran
  rw [shelved.current] at touches
  refine shelved.beside touches fun shelf reached member => ?_
  rcases member with here | gone | onWay
  · exact clear shelf reached (Or.inl (List.mem_singleton.1 here))
  · exact absurd gone (by simp)
  · exact (clear shelf).way onWay

/-- A file that is written at the place of an object changes its row. -/
theorem write (shelved : Shelved settings remote start paths content before)
    (separate : Separate settings start.current) (apart : PlacesApart settings remote start)
    (on : OnShelf settings remote start shelf id) (placeable : Placeable id)
    (ran : Document.writeBelow before (shelf.file settings id) text = (.ok (), after)) :
    Shelved settings remote start paths (shelvedAt shelf id text content) after ∧
      after.Passable (shelf.file settings id) := by
  obtain ⟨ends, passable, touches, stands⟩ := Document.writeBelow_ok shelved.sound ran
  rw [shelved.current] at touches stands
  have goalOnWay := Path.goal_mem_way ends start.current
  have same : ∀ location, location ∉ (shelf.file settings id).way start.current →
      after.entryAt? location = before.entryAt? location := by
    intro location free
    have unwritten : location ∉ [(shelf.file settings id).goal start.current] := by
      rw [List.mem_singleton]
      intro here
      rw [here] at free
      exact free goalOnWay
    rcases touches.others location unwritten (by simp) with same | ⟨member, _⟩
    · exact same
    · exact absurd member free
  refine ⟨⟨touches.sound, touches.current.trans shelved.current, ?_, ?_, ?_⟩, passable⟩
  · intro location below
    have clear := separate.file_clear placeable on.not_sources
      (Ne.symm on.not_sources)
    rw [same location fun member => clear.way member below]
    exact shelved.sources location below
  · exact fun path member => touches.passable (shelved.passable path member)
  · intro other twin onOther placeableTwin
    unfold shelvedAt
    by_cases here : other = shelf ∧ twin = id
    · rw [if_pos here, here.1, here.2, stands]
      rfl
    · rw [if_neg here, same _ (goal_not_on_way separate apart on onOther placeable placeableTwin
        here)]
      exact shelved.stands other twin onOther placeableTwin

/-- A catalog in the target that is persisted changes no row. -/
theorem persist {catalog : Catalog} {file : String}
    (shelved : Shelved settings remote start paths content before)
    (separate : Separate settings start.current) (written : settings.target.IsText)
    (path : catalog.path = settings.target.child file) (plain : Path.IsName file)
    (longer : Path.IsName (file ++ ".tmp"))
    (noShelf : ∀ shelf : Shelf, shelf.name? ≠ some file ∧ shelf.name? ≠ some (file ++ ".tmp"))
    (ran : catalog.persist before = (.ok (), after)) :
    Shelved settings remote start paths content after ∧ after.Passable (settings.target.child file) := by
  obtain ⟨passable, touches⟩ := Catalog.persist_ok shelved.sound ran
  have sibling : catalog.sibling = settings.target.child (file ++ ".tmp") := by
    unfold Catalog.sibling
    rw [path, Path.extended_child written plain longer]
  rw [path] at passable
  rw [path, sibling, shelved.current] at touches
  refine ⟨shelved.beside touches fun shelf reached member => ?_, passable⟩
  have behind : ∀ {name}, Path.IsName name → (settings.target.child name).components =
      settings.target.components ++ [name].map Path.Component.named :=
    fun plain => Path.components_child _ plain
  have clear : (settings.target.child file).Clear start.current (shelf.directory settings) :=
    separate.clear_behind (behind plain) (noShelf shelf).1
  have clearSibling : (settings.target.child (file ++ ".tmp")).Clear start.current
      (shelf.directory settings) :=
    separate.clear_behind (behind longer) (noShelf shelf).2
  rcases member with inWritten | gone | onWay
  · rcases List.mem_cons.1 inWritten with here | there
    · exact clear reached (Or.inl here)
    · exact clearSibling reached (Or.inl (List.mem_singleton.1 there))
  · exact clearSibling reached (Or.inl (List.mem_singleton.1 gone))
  · exact clear.way ((Path.endsInName_child _ plain).way_of_enclosing _ _ onWay)

/-! ## Reading -/

/-- What stands at the place of an object in the target. -/
theorem entry_file {name : String} (shelved : Shelved settings remote start paths content before)
    (named : shelf.name? = some name) (reached : settings.target ∈ paths)
    (on : OnShelf settings remote start shelf id) (placeable : Placeable id) :
    before.entry? (shelf.file settings id) =
      (content shelf id).map fun text => .file (.text text) := by
  have passable : before.Passable (shelf.file settings id) := by
    unfold Disk.Passable
    rw [Shelf.left_file placeable named]
    exact shelved.passable _ reached
  rw [Disk.entry_of_name (Shelf.endsInName_file placeable named) passable, shelved.current]
  exact shelved.stands shelf id on placeable

/-- Nothing exists at a place without a row. -/
theorem not_exists? (shelved : Shelved settings remote start paths content before)
    (on : OnShelf settings remote start shelf id) (placeable : Placeable id)
    (empty : content shelf id = none) : before.exists? (shelf.file settings id) = false := by
  rw [Bool.eq_false_iff]
  intro there
  obtain ⟨entry, found⟩ := Disk.exists?_iff.1 there
  have stands := (Disk.entry_eq_some found).2.2
  rw [shelved.current, shelved.stands shelf id on placeable, empty] at stands
  exact absurd stands (by simp)

/-- The text of a source of the project is the one that it started with. -/
theorem readSource_same {file : Path} (shelved : Shelved settings remote start paths content before)
    (reached : settings.sources ∈ paths) (passable : start.Passable settings.sources)
    (some_ : file.segments ≠ []) (names : ∀ name ∈ file.segments, Path.Names name) :
    readSource before (settings.sources.join file) = readSource start (settings.sources.join file) := by
  have behind : (settings.sources.join file).components =
      settings.sources.components ++ file.segments.map Path.Component.named :=
    Path.components_join_names settings.sources some_ names
  have same : before.entry? (settings.sources.join file) =
      start.entry? (settings.sources.join file) := by
    refine Disk.entry_congr shelved.current ?_ ?_
    · rw [Disk.passable_of_names behind, Disk.passable_of_names behind]
      exact ⟨fun _ => passable, fun _ => shelved.passable _ reached⟩
    · refine shelved.sources _ ?_
      rw [Path.goal_of_names _ behind]
      exact List.prefix_append _ _
  unfold readSource
  rw [Disk.readText_congr same]

end Shelved

end EoAssembly.Build
