import EoAssembly.Proofs.Disk.Attempt

/-!
Contract: when the operations of a disk succeed.

A disk that forces no failure receives a file when each directory above it is there, or
can be made because nothing is in its place, and no directory is in the place of the file.

Owns `Calm`, `Receives`, and that writing a file that is received succeeds.
-/

namespace EoAssembly

open Path (Component)

namespace Path

/-- The locations that the names of a path reach before its last component. -/
def above (current : Location) (path : Path) : List Location :=
  wayFrom current path.components.dropLast

theorem EndsInName.above_eq {path : Path} (ends : path.EndsInName) (current : Location) :
    path.above current = wayFrom current path.enclosing := by
  unfold above
  rw [ends.enclosing_eq]

end Path

namespace Disk

variable {disk next : Disk} {path : Path} {text : String}

/-- No failure is forced on the writes to come. -/
def Calm (disk : Disk) : Prop := disk.outages = []

/-- The disk with no failure forced any more. -/
def calmed (disk : Disk) : Disk := { disk with outages := [] }

theorem calm_calmed (disk : Disk) : disk.calmed.Calm := rfl

theorem entryAt?_calmed (disk : Disk) (location : Location) :
    disk.calmed.entryAt? location = disk.entryAt? location := rfl

theorem walk_calmed (disk : Disk) (components : List Component) (location : Location) :
    disk.calmed.walk location components = disk.walk location components := by
  induction components generalizing location with
  | nil => rfl
  | cons component rest inductionHypothesis =>
    cases component with
    | up =>
      show (if disk.directoryAt location then disk.calmed.walk location.dropLast rest else none) = _
      rw [inductionHypothesis]
      rfl
    | _ => exact inductionHypothesis _

theorem resolve?_calmed (disk : Disk) (path : Path) :
    disk.calmed.resolve? path = disk.resolve? path := by
  unfold resolve?
  rw [walk_calmed]
  rfl

/-- A directory is there, or can be made. -/
def Enterable (disk : Disk) (location : Location) : Prop :=
  disk.directoryAt location = true ∨
    disk.entryAt? location = none ∧ ∀ name ∈ location.getLast?, nameAllowed name = true

/-- A file can be written where a path leads. -/
structure Receives (disk : Disk) (path : Path) : Prop where
  ends : path.EndsInName
  above : ∀ reached ∈ path.above disk.current, disk.Enterable reached
  apart : path.goal disk.current ∉ path.above disk.current
  goal : disk.directoryAt (path.goal disk.current) = false
  allowed : (path.goal disk.current).all nameAllowed = true

theorem Calm.takeOutage (calm : disk.Calm) : disk.takeOutage = (false, disk) := by
  unfold Disk.takeOutage
  rw [calm]

theorem Enterable.later {before after : Disk} {location : Location}
    (enterable : before.Enterable location)
    (moved : after.entryAt? location = before.entryAt? location ∨
      after.entryAt? location = some .directory) : after.Enterable location := by
  rcases moved with same | directory
  · unfold Enterable
    rw [directoryAt_congr same, same]
    exact enterable
  · exact Or.inl (directoryAt_iff.2 directory)

/-! ## Creating directories -/

theorem createAlong_outages {components : List Component} {location : Location}
    {outcome : Except Refusal Unit}
    (ran : disk.createAlong location components = (outcome, next)) :
    next.outages = disk.outages := by
  induction components generalizing disk location with
  | nil => rw [← (Prod.mk.inj ran).2]
  | cons component rest inductionHypothesis =>
    cases component with
    | root => exact inductionHypothesis ran
    | here => exact inductionHypothesis ran
    | up => exact inductionHypothesis ran
    | named name =>
      simp only [createAlong] at ran
      split at ran
      · exact inductionHypothesis ran
      · rw [← (Prod.mk.inj ran).2]
      · split at ran
        · have created := inductionHypothesis ran
          exact created
        · rw [← (Prod.mk.inj ran).2]

theorem calm_createParent {outcome : Except Refusal Unit} (calm : disk.Calm)
    (ran : disk.createParent path = (outcome, next)) : next.Calm := by
  rw [createParent_eq] at ran
  exact (createAlong_outages ran).trans calm

/-- Where the directories along components can be entered, they can be created. -/
theorem createAlong_receives {components : List Component} {location : Location}
    (enterable : ∀ reached ∈ Path.wayFrom location components, disk.Enterable reached) :
    ∃ next, disk.createAlong location components = (.ok (), next) := by
  induction components generalizing disk location with
  | nil => exact ⟨disk, rfl⟩
  | cons component rest inductionHypothesis =>
    cases component with
    | root => exact inductionHypothesis enterable
    | here => exact inductionHypothesis enterable
    | up => exact inductionHypothesis enterable
    | named name =>
      have later := fun reached member => enterable reached (List.mem_cons_of_mem _ member)
      simp only [createAlong]
      rcases enterable (location ++ [name]) List.mem_cons_self with directory | ⟨nothing, allowed⟩
      · rw [directoryAt_iff.1 directory]
        exact inductionHypothesis later
      · rw [nothing]
        simp only [allowed name (by simp), if_true]
        refine inductionHypothesis fun reached member => (later reached member).later ?_
        rw [entryAt?_put disk (by simp)]
        split
        · exact Or.inr rfl
        · exact Or.inl rfl

/-- What components reach, leave and lead to are directories once they are created. -/
theorem createAlong_directories {components : List Component} (sound : disk.Sound)
    {location : Location} (here : disk.directoryAt location = true)
    (ran : disk.createAlong location components = (.ok (), next)) :
    next.directoryAt (Path.goalFrom location components) = true ∧
      (∀ passed ∈ Path.leftFrom location components, next.directoryAt passed = true) ∧
      ∀ reached ∈ Path.wayFrom location components, next.directoryAt reached = true := by
  induction components generalizing disk location with
  | nil =>
    rw [← (Prod.mk.inj ran).2]
    exact ⟨here, by simp [Path.leftFrom], by simp [Path.wayFrom]⟩
  | cons component rest inductionHypothesis =>
    cases component with
    | root => exact inductionHypothesis sound (directoryAt_root disk) ran
    | here => exact inductionHypothesis sound here ran
    | up =>
      have parent := sound.parents location (by rw [directoryAt_iff.1 here]; simp)
      obtain ⟨goal, left, way⟩ := inductionHypothesis sound parent ran
      have stays := (touches_createAlong sound parent ran).directories location here
      exact ⟨goal, List.forall_mem_cons.2 ⟨stays, left⟩, way⟩
    | named name =>
      simp only [createAlong] at ran
      split at ran
      · next stands =>
        have directory := directoryAt_iff.2 stands
        obtain ⟨goal, left, way⟩ := inductionHypothesis sound directory ran
        have stays := (touches_createAlong sound directory ran).directories _ directory
        exact ⟨goal, left, List.forall_mem_cons.2 ⟨stays, way⟩⟩
      · exact absurd (Prod.mk.inj ran).1 (by simp)
      · next nothing =>
        split at ran
        · have notRoot : location ++ [name] ≠ [] := by simp
          have put := touches_put sound .directory notRoot
            (by rw [List.dropLast_concat]; exact here) fun _ => rfl
          have created : (disk.put (location ++ [name]) .directory).directoryAt
              (location ++ [name]) = true := by
            rw [directoryAt_iff, entryAt?_put disk notRoot, if_pos rfl]
          obtain ⟨goal, left, way⟩ := inductionHypothesis put.sound created ran
          have stays := (touches_createAlong put.sound created ran).directories _ created
          exact ⟨goal, left, List.forall_mem_cons.2 ⟨stays, way⟩⟩
        · exact absurd (Prod.mk.inj ran).1 (by simp)

/-- Once the directory of a file is created, a file beside it can be written where no directory
stands. -/
theorem writableAt_created {prepared : Disk} {other : Path} (sound : disk.Sound)
    (ends : path.EndsInName) (created : disk.createParent path = (.ok (), prepared))
    (endsOther : other.EndsInName)
    (beside : other.components.dropLast = path.components.dropLast)
    (apart : other.goal disk.current ∉ path.above disk.current)
    (goal : disk.directoryAt (other.goal disk.current) = false)
    (allowed : (other.goal disk.current).all nameAllowed = true) :
    prepared.writableAt other = .ok (other.goal disk.current) := by
  obtain ⟨name, components⟩ := endsOther.components_eq
  rw [endsOther.enclosing_eq, beside, ← ends.enclosing_eq] at components
  have isGoal : other.goal disk.current = Path.goalFrom disk.current path.enclosing ++ [name] := by
    unfold Path.goal
    rw [components, Path.goalFrom_append]
    rfl
  have isLeft : other.left disk.current = Path.leftFrom disk.current path.enclosing := by
    unfold Path.left
    rw [components, Path.leftFrom_append]
    exact List.append_nil _
  rw [createParent_eq] at created
  have touches := touches_createAlong sound sound.current created
  obtain ⟨directory, left, _⟩ := createAlong_directories sound sound.current created
  have passable : prepared.Passable other := by
    unfold Passable
    rw [touches.current, isLeft]
    exact left
  have noDirectory : prepared.directoryAt (other.goal disk.current) = false := by
    rw [← goal]
    exact directoryAt_congr (touches.untouched (by simp) (by simp) (ends.above_eq _ ▸ apart))
  unfold writableAt
  rw [resolve?_of_passable endsOther.not_empty passable, touches.current]
  simp only [Path.endsInName_iff.1 endsOther, noDirectory, allowed, Bool.or_self,
    Bool.false_eq_true, if_false, if_true]
  rw [isGoal, List.dropLast_concat, directory]
  rfl

/-- The directory of a file that is received can be created. -/
theorem Receives.createParent (receives : disk.Receives path) (calm : disk.Calm) :
    ∃ prepared, disk.createParent path = (.ok (), prepared) ∧ prepared.Calm := by
  have enterable := receives.above
  rw [receives.ends.above_eq] at enterable
  obtain ⟨prepared, created⟩ := createAlong_receives enterable
  rw [← createParent_eq] at created
  exact ⟨prepared, created, calm_createParent calm created⟩

/-! ## Writing and replacing -/

theorem writableAt_allowed {location : Location} (writable : disk.writableAt path = .ok location) :
    location = path.goal disk.current ∧ location.all nameAllowed = true := by
  refine ⟨(writableAt_ok writable).2.2.1, ?_⟩
  unfold writableAt at writable
  split at writable
  · exact absurd writable (by simp)
  · split at writable
    · exact absurd writable (by simp)
    · split at writable
      · exact absurd writable (by simp)
      · split at writable
        · next allowed =>
          rw [← Except.ok.inj writable]
          exact allowed
        · exact absurd writable (by simp)

theorem writeText_receives {location : Location} (calm : disk.Calm)
    (writable : disk.writableAt path = .ok location) :
    disk.writeText path text = (.ok (), disk.put location (.file (.text text))) := by
  unfold writeText writeFile
  rw [calm.takeOutage]
  simp only [writable, Bool.false_eq_true, if_false]

/-- A file may be written where one stands, and where nothing stands in a directory. -/
theorem writableAt_put {location other : Location} {entry : Entry} (notRoot : location ≠ [])
    (writable : disk.writableAt path = .ok other) (file : entry ≠ .directory)
    (standing : disk.directoryAt location = false) :
    (disk.put location entry).writableAt path = .ok other := by
  have same : ∀ place, (disk.put location entry).directoryAt place = disk.directoryAt place := by
    intro place
    unfold directoryAt at standing ⊢
    rw [entryAt?_put disk notRoot]
    split
    · next here =>
      rw [here, standing]
      exact beq_eq_false_iff_ne.2 fun wrong => file (Option.some.inj wrong)
    · rfl
  have walks : ∀ components place, (disk.put location entry).walk place components =
      disk.walk place components := by
    intro components
    induction components with
    | nil => exact fun _ => rfl
    | cons component rest inductionHypothesis =>
      intro place
      cases component with
      | up => simp only [walk, same, inductionHypothesis]
      | _ => exact inductionHypothesis _
  unfold writableAt resolve? at writable ⊢
  simp only [walks, same]
  exact writable

theorem replace_receives {source target : Path} {content : FileContent} {location : Location}
    (calm : disk.Calm) (stands : disk.entry? source = some (.file content))
    (writable : disk.writableAt target = .ok location) :
    ∃ next, disk.replace source target = (.ok (), next) ∧ next.Calm := by
  obtain ⟨some_, passable, _⟩ := entry_eq_some stands
  unfold replace
  rw [calm.takeOutage]
  simp only [resolve?_of_passable some_ passable, stands, writable, Bool.false_eq_true, if_false]
  exact ⟨_, rfl, calm⟩

end Disk

/-- A file that is received is written. -/
theorem Document.writeBelow_receives {disk : Disk} {path : Path} (receives : disk.Receives path)
    (sound : disk.Sound) (calm : disk.Calm) (text : String) :
    ∃ next, Document.writeBelow disk path text = (.ok (), next) ∧ next.Calm := by
  obtain ⟨prepared, created, still⟩ := receives.createParent calm
  have writable := Disk.writableAt_created sound receives.ends created receives.ends rfl
    receives.apart receives.goal receives.allowed
  have wrote : prepared.writeText path text = _ := Disk.writeText_receives still writable
  exact ⟨_, writeBelow_iff.2 (.written created wrote), still⟩

end EoAssembly
