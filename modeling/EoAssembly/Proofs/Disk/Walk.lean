import EoAssembly.Disk
import EoAssembly.Proofs.Path

/-!
Contract: where the components of a path lead, apart from any disk.

A path leads to its goal, it leaves the directories named before each `..`, and
its way are the locations that its names reach.  A disk has the goal at the end
of a path exactly when all locations left on the way are directories.

Owns `goalFrom`, `leftFrom` and `wayFrom`, their laws for components one behind
the other, and what a disk finds at the end of a path.
-/

namespace EoAssembly

open Path (Component IsName)

namespace Path

/-- Where components lead from a location. -/
def goalFrom : Location → List Component → Location
  | location, [] => location
  | _, .root :: rest => goalFrom [] rest
  | location, .here :: rest => goalFrom location rest
  | location, .up :: rest => goalFrom location.dropLast rest
  | location, .named name :: rest => goalFrom (location ++ [name]) rest

/-- The locations that components leave upwards. -/
def leftFrom : Location → List Component → List Location
  | _, [] => []
  | _, .root :: rest => leftFrom [] rest
  | location, .here :: rest => leftFrom location rest
  | location, .up :: rest => location :: leftFrom location.dropLast rest
  | location, .named name :: rest => leftFrom (location ++ [name]) rest

/-- The locations that the names among components reach. -/
def wayFrom : Location → List Component → List Location
  | _, [] => []
  | _, .root :: rest => wayFrom [] rest
  | location, .here :: rest => wayFrom location rest
  | location, .up :: rest => wayFrom location.dropLast rest
  | location, .named name :: rest => (location ++ [name]) :: wayFrom (location ++ [name]) rest

/-- Where a path leads from a location. -/
def goal (current : Location) (path : Path) : Location := goalFrom current path.components

/-- The locations that a path leaves upwards. -/
def left (current : Location) (path : Path) : List Location := leftFrom current path.components

/-- The locations that the names of a path reach. -/
def way (current : Location) (path : Path) : List Location := wayFrom current path.components

/-! ## Components one behind the other -/

theorem goalFrom_append (location : Location) (first second : List Component) :
    goalFrom location (first ++ second) = goalFrom (goalFrom location first) second := by
  induction first generalizing location with
  | nil => rfl
  | cons component rest inductionHypothesis =>
    cases component <;> exact inductionHypothesis _

theorem leftFrom_append (location : Location) (first second : List Component) :
    leftFrom location (first ++ second) =
      leftFrom location first ++ leftFrom (goalFrom location first) second := by
  induction first generalizing location with
  | nil => rfl
  | cons component rest inductionHypothesis =>
    cases component with
    | up => exact congrArg (location :: ·) (inductionHypothesis _)
    | _ => exact inductionHypothesis _

theorem wayFrom_append (location : Location) (first second : List Component) :
    wayFrom location (first ++ second) =
      wayFrom location first ++ wayFrom (goalFrom location first) second := by
  induction first generalizing location with
  | nil => rfl
  | cons component rest inductionHypothesis =>
    cases component with
    | named name => exact congrArg ((location ++ [name]) :: ·) (inductionHypothesis _)
    | _ => exact inductionHypothesis _

theorem goalFrom_names (location : Location) (names : List String) :
    goalFrom location (names.map Component.named) = location ++ names := by
  induction names generalizing location with
  | nil => simp [goalFrom]
  | cons name rest inductionHypothesis =>
    rw [List.map_cons, goalFrom, inductionHypothesis, List.append_assoc]
    rfl

theorem leftFrom_names (location : Location) (names : List String) :
    leftFrom location (names.map Component.named) = [] := by
  induction names generalizing location with
  | nil => rfl
  | cons name rest inductionHypothesis => exact inductionHypothesis _

/-- Names reach locations behind the start and up to the goal. -/
theorem mem_wayFrom_names {location reached : Location} {names : List String} :
    reached ∈ wayFrom location (names.map Component.named) ↔
      ∃ front, front ≠ [] ∧ front <+: names ∧ reached = location ++ front := by
  induction names generalizing location with
  | nil =>
    simp only [List.map_nil, wayFrom, List.not_mem_nil, List.prefix_nil, false_iff]
    rintro ⟨front, some_, none, _⟩
    exact some_ none
  | cons name rest inductionHypothesis =>
    rw [List.map_cons, wayFrom, List.mem_cons, inductionHypothesis]
    constructor
    · rintro (here | ⟨front, _, first, same⟩)
      · exact ⟨[name], by simp, ⟨rest, rfl⟩, here⟩
      · refine ⟨name :: front, by simp, ?_, ?_⟩
        · exact List.cons_prefix_cons.2 ⟨rfl, first⟩
        · rw [same, List.append_assoc]
          rfl
    · rintro ⟨front, some_, first, same⟩
      obtain ⟨head, others, split⟩ := List.exists_cons_of_ne_nil some_
      rw [split] at first same
      obtain ⟨sameHead, behind⟩ := List.cons_prefix_cons.1 first
      rw [sameHead] at same
      cases others with
      | nil => exact Or.inl same
      | cons second more =>
        refine Or.inr ⟨second :: more, by simp, behind, ?_⟩
        rw [same, List.append_assoc]
        rfl

section Names

variable {names : List String} {path : Path} (current : Location)

theorem goal_of_names {directory : Path}
    (behind : path.components = directory.components ++ names.map Component.named) :
    path.goal current = directory.goal current ++ names := by
  unfold goal
  rw [behind, goalFrom_append, goalFrom_names]

theorem left_of_names {directory : Path}
    (behind : path.components = directory.components ++ names.map Component.named) :
    path.left current = directory.left current := by
  unfold left
  rw [behind, leftFrom_append, leftFrom_names, List.append_nil]

theorem mem_way_of_names {directory : Path} {reached : Location}
    (behind : path.components = directory.components ++ names.map Component.named) :
    reached ∈ path.way current ↔ reached ∈ directory.way current ∨
      ∃ front, front ≠ [] ∧ front <+: names ∧ reached = directory.goal current ++ front := by
  unfold way goal
  rw [behind, wayFrom_append, List.mem_append, mem_wayFrom_names]

end Names

/-- The last name of a path reaches its goal. -/
theorem goal_mem_way {path : Path} (ends : path.EndsInName) (current : Location) :
    path.goal current ∈ path.way current := by
  obtain ⟨name, components⟩ := ends.components_eq
  unfold goal way
  rw [components, goalFrom_append, wayFrom_append]
  exact List.mem_append_right _ List.mem_cons_self

/-- The way to the directory of a file is on the way to the file. -/
theorem EndsInName.way_of_enclosing {path : Path} (ends : path.EndsInName) (current : Location) :
    ∀ reached ∈ wayFrom current path.enclosing, reached ∈ path.way current := by
  obtain ⟨name, components⟩ := ends.components_eq
  unfold way
  rw [components, wayFrom_append]
  exact fun reached member => List.mem_append_left _ member

end Path

/-! ## What a disk finds -/

namespace Disk

theorem walk_eq_some {disk : Disk} {components : List Component} {location : Location}
    (directories : ∀ passed ∈ Path.leftFrom location components, disk.directoryAt passed = true) :
    disk.walk location components = some (Path.goalFrom location components) := by
  induction components generalizing location with
  | nil => rfl
  | cons component rest inductionHypothesis =>
    cases component with
    | up =>
      have here := directories location List.mem_cons_self
      simp only [walk, here, if_true]
      exact inductionHypothesis fun passed member =>
        directories passed (List.mem_cons_of_mem location member)
    | _ => exact inductionHypothesis directories

theorem directory_of_walk {disk : Disk} {components : List Component} {location found : Location}
    (leads : disk.walk location components = some found) :
    ∀ passed ∈ Path.leftFrom location components, disk.directoryAt passed = true := by
  induction components generalizing location with
  | nil => simp [Path.leftFrom]
  | cons component rest inductionHypothesis =>
    cases component with
    | up =>
      simp only [walk] at leads
      split at leads
      · next here =>
        intro passed member
        rcases List.mem_cons.1 member with first | later
        · rw [first]
          exact here
        · exact inductionHypothesis leads passed later
      · exact absurd leads (by simp)
    | _ => exact inductionHypothesis leads

/-- Whether all that a path leaves upwards are directories. -/
def Passable (disk : Disk) (path : Path) : Prop :=
  ∀ passed ∈ path.left disk.current, disk.directoryAt passed = true

/-- A path is passed like the directory that it leads into by names. -/
theorem passable_of_names {disk : Disk} {path directory : Path} {names : List String}
    (behind : path.components = directory.components ++ names.map Component.named) :
    disk.Passable path ↔ disk.Passable directory := by
  unfold Passable
  rw [Path.left_of_names disk.current behind]

theorem directoryAt_congr {first second : Disk} {location : Location}
    (same : second.entryAt? location = first.entryAt? location) :
    second.directoryAt location = first.directoryAt location := by
  unfold directoryAt
  rw [same]

/-- Two disks that agree on what a path leaves upwards pass it alike. -/
theorem passable_congr {first second : Disk} {path : Path}
    (sameCurrent : second.current = first.current)
    (sameLeft : ∀ passed ∈ path.left first.current,
      second.entryAt? passed = first.entryAt? passed) :
    second.Passable path ↔ first.Passable path := by
  unfold Passable
  rw [sameCurrent]
  exact forall₂_congr fun passed member => by rw [directoryAt_congr (sameLeft passed member)]

theorem resolve?_of_passable {disk : Disk} {path : Path} (some_ : path.isEmpty = false)
    (passable : disk.Passable path) : disk.resolve? path = some (path.goal disk.current) := by
  unfold resolve?
  rw [some_]
  exact walk_eq_some passable

theorem passable_of_resolve? {disk : Disk} {path : Path} {location : Location}
    (leads : disk.resolve? path = some location) :
    path.isEmpty = false ∧ disk.Passable path ∧ location = path.goal disk.current := by
  unfold resolve? at leads
  cases empty : path.isEmpty with
  | true => simp [empty] at leads
  | false =>
    simp only [empty, Bool.false_eq_true, if_false] at leads
    have passable := directory_of_walk leads
    rw [walk_eq_some passable] at leads
    exact ⟨rfl, passable, (Option.some.inj leads).symm⟩

/-- What stands at the end of a path that ends in a name. -/
theorem entry_of_name {disk : Disk} {path : Path} (ends : path.EndsInName)
    (passable : disk.Passable path) :
    disk.entry? path = disk.entryAt? (path.goal disk.current) := by
  unfold entry?
  rw [resolve?_of_passable ends.not_empty passable]
  simp only [Path.endsInName_iff.1 ends]
  cases disk.entryAt? (path.goal disk.current) with
  | none => rfl
  | some entry => cases entry <;> rfl

theorem exists?_iff {disk : Disk} {path : Path} :
    disk.exists? path = true ↔ ∃ entry, disk.entry? path = some entry :=
  Option.isSome_iff_exists

theorem not_exists?_iff {disk : Disk} {path : Path} :
    disk.exists? path = false ↔ disk.entry? path = none :=
  Option.isSome_eq_false_iff.trans Option.isNone_iff_eq_none

theorem exists?_congr {first second : Disk} {path : Path}
    (same : second.entry? path = first.entry? path) : second.exists? path = first.exists? path := by
  unfold exists?
  rw [same]

/-- A file that reads as a text holds it. -/
theorem readText_eq_ok {disk : Disk} {path : Path} {text : String} :
    disk.readText path = .ok text ↔ disk.entry? path = some (.file (.text text)) := by
  unfold readText
  split
  · next content found => simp [found]
  · next found => simp [found]
  · next found => simp [found]
  · next found => simp [found]

theorem readText_congr {first second : Disk} {path : Path}
    (same : second.entry? path = first.entry? path) :
    second.readText path = first.readText path := by
  unfold readText
  rw [same]

theorem entry_eq_some {disk : Disk} {path : Path} {entry : Entry}
    (found : disk.entry? path = some entry) :
    path.isEmpty = false ∧ disk.Passable path ∧
      disk.entryAt? (path.goal disk.current) = some entry := by
  unfold entry? at found
  cases leads : disk.resolve? path with
  | none => simp [leads] at found
  | some location =>
    obtain ⟨some_, passable, same⟩ := passable_of_resolve? leads
    rw [leads, same] at found
    refine ⟨some_, passable, ?_⟩
    simp only at found
    split at found
    · next content file =>
      split at found
      · exact absurd found (by simp)
      · rw [file]
        exact found
    · exact found

/-- Two disks that agree on what a path leaves and on its goal agree on the path. -/
theorem entry_congr {first second : Disk} {path : Path}
    (sameCurrent : second.current = first.current)
    (samePassable : second.Passable path ↔ first.Passable path)
    (sameEntry : second.entryAt? (path.goal first.current) =
      first.entryAt? (path.goal first.current)) :
    second.entry? path = first.entry? path := by
  have sameGoal : second.resolve? path = first.resolve? path := by
    cases leads : first.resolve? path with
    | some location =>
      obtain ⟨some_, passable, same⟩ := passable_of_resolve? leads
      rw [resolve?_of_passable some_ (samePassable.2 passable), sameCurrent, same]
    | none =>
      cases other : second.resolve? path with
      | none => rfl
      | some location =>
        obtain ⟨some_, passable, _⟩ := passable_of_resolve? other
        rw [resolve?_of_passable some_ (samePassable.1 passable)] at leads
        exact absurd leads (by simp)
  unfold entry?
  rw [sameGoal]
  cases leads : first.resolve? path with
  | none => rfl
  | some location =>
    rw [(passable_of_resolve? leads).2.2]
    simp only [sameEntry]

end Disk

end EoAssembly
