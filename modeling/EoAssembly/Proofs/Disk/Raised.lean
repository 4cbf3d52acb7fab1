import EoAssembly.Proofs.Catalog.Persist
import EoAssembly.Proofs.Disk.Granted

/-!
Contract: where directories appear on a disk, and what becomes of the goal of a write.

Writing a file makes directories above the file only, also when the write fails, and
where a file stood one stands after it.  A file that was written has its directories above
it, and names that are allowed.

Owns `Disk.Raises` and `Disk.Carries`, and for each operation that writes files where it
makes directories and which files it leaves.
-/

namespace EoAssembly

namespace Disk

variable {disk between next : Disk} {path source target : Path} {text : String}

/-- Directories appeared at some of these locations at most, under allowed names, where nothing
stood. -/
def Raises (made : List Location) (before after : Disk) : Prop :=
  ∀ location, after.directoryAt location = true → before.directoryAt location = true ∨
    location ∈ made ∧ before.entryAt? location = none ∧
      ∀ name ∈ location.getLast?, nameAllowed name = true

/-- The directories above the goal of a path are there, and a file there has an allowed name. -/
structure Carries (disk : Disk) (path : Path) : Prop where
  above : ∀ reached ∈ path.above disk.current, disk.directoryAt reached = true
  allowed : (path.goal disk.current).all nameAllowed = true

theorem Carries.touch {written gone made : List Location} (carries : disk.Carries path)
    (touches : Touches written gone made disk next) : next.Carries path := by
  obtain ⟨above, allowed⟩ := carries
  constructor
  · rw [touches.current]
    exact fun reached member => touches.directories reached (above reached member)
  · rw [touches.current]
    exact allowed

/-- An operation that makes no directories may follow. -/
theorem Raises.trans {made : List Location} (first : disk.Raises made between)
    (second : between.Raises [] next) : disk.Raises made next := by
  intro location here
  rcases second location here with before | ⟨none, _⟩
  · exact first location before
  · exact absurd none (by simp)

/-- Directories that are created along components have allowed names. -/
theorem createAlong_allowed {components : List Path.Component} {location reached : Location}
    {outcome : Except Refusal Unit} (ran : disk.createAlong location components = (outcome, next))
    (here : next.directoryAt reached = true) : disk.directoryAt reached = true ∨
      ∀ name ∈ reached.getLast?, nameAllowed name = true := by
  induction components generalizing disk location with
  | nil =>
    rw [← (Prod.mk.inj ran).2] at here
    exact Or.inl here
  | cons component rest inductionHypothesis =>
    cases component with
    | root => exact inductionHypothesis ran
    | here => exact inductionHypothesis ran
    | up => exact inductionHypothesis ran
    | named name =>
      simp only [createAlong] at ran
      split at ran
      · exact inductionHypothesis ran
      · rw [← (Prod.mk.inj ran).2] at here
        exact Or.inl here
      · split at ran
        · next allowed =>
          rcases inductionHypothesis ran with before | named
          · rw [directoryAt_iff, entryAt?_put disk (by simp)] at before
            split at before
            · next same =>
              rw [same]
              exact Or.inr (by simpa using allowed)
            · exact Or.inl (directoryAt_iff.2 before)
          · exact Or.inr named
        · rw [← (Prod.mk.inj ran).2] at here
          exact Or.inl here

/-- A path leads to what it led to, when its goal is not touched. -/
theorem Touches.entry?_stays {written gone made : List Location} {entry : Entry}
    (touches : Touches written gone made disk next) (unwritten : path.goal disk.current ∉ written)
    (kept : path.goal disk.current ∉ gone) (found : disk.entry? path = some entry) :
    next.entry? path = some entry := by
  obtain ⟨_, passable, stands⟩ := entry_eq_some found
  rw [← found]
  refine entry_congr touches.current ⟨fun _ => passable, fun _ => touches.passable passable⟩ ?_
  rw [stands, touches.stays unwritten kept stands]

theorem raises_put {location : Location} (notRoot : location ≠ []) (content : FileContent) :
    disk.Raises [] (disk.put location (.file content)) := by
  intro other here
  rw [directoryAt_iff, entryAt?_put disk notRoot] at here
  split at here
  · exact absurd here (by simp)
  · exact Or.inl (directoryAt_iff.2 here)

theorem raises_erase (location : Location) : disk.Raises [] (disk.erase location) := by
  intro other here
  rw [directoryAt_iff, entryAt?_erase] at here
  split at here
  · exact absurd here (by simp)
  · exact Or.inl (directoryAt_iff.2 here)

theorem raises_takeOutage : disk.Raises [] disk.takeOutage.2 := by
  intro other here
  rw [directoryAt_congr (takeOutage_entryAt? disk other)] at here
  exact Or.inl here

theorem raises_writeText {outcome : Except Refusal Unit}
    (ran : disk.writeText path text = (outcome, next)) : disk.Raises [] next := by
  cases outcome with
  | error refusal =>
    rw [writeText_failed ran]
    exact raises_takeOutage
  | ok value =>
    obtain ⟨location, writable, rfl⟩ := writeText_eq_ok ran
    obtain ⟨_, _, _, _, noDirectory⟩ := writableAt_ok writable
    exact raises_takeOutage.trans (raises_put (notRoot_of_writable noDirectory) _)

theorem raises_replace {outcome : Except Refusal Unit}
    (ran : disk.replace source target = (outcome, next)) : disk.Raises [] next := by
  cases outcome with
  | error refusal =>
    rw [replace_failed ran]
    exact raises_takeOutage
  | ok value =>
    obtain ⟨origin, content, location, _, _, writable, rfl⟩ := replace_eq_ok ran
    obtain ⟨_, _, _, _, noDirectory⟩ := writableAt_ok writable
    exact (raises_takeOutage.trans (raises_erase origin)).trans
      (raises_put (notRoot_of_writable noDirectory) content)

/-- Creating the parent of a path makes the directories on the way to it at most. -/
theorem raises_createParent (sound : disk.Sound) {outcome : Except Refusal Unit}
    (ran : disk.createParent path = (outcome, next)) :
    disk.Raises (Path.wayFrom disk.current path.enclosing) next := by
  intro location here
  rcases (touches_createParent sound ran).others location (by simp) (by simp) with
    same | ⟨among, nothing, _⟩
  · rw [directoryAt_congr same] at here
    exact Or.inl here
  · rw [createParent_eq] at ran
    exact (createAlong_allowed ran here).imp_right fun allowed => ⟨among, nothing, allowed⟩

/-- The directories above a path are there once its parent is created. -/
theorem createParent_above (sound : disk.Sound) (ends : path.EndsInName)
    (ran : disk.createParent path = (.ok (), next)) :
    ∀ reached ∈ path.above disk.current, next.directoryAt reached = true := by
  rw [createParent_eq] at ran
  rw [ends.above_eq]
  exact (createAlong_directories sound sound.current ran).2.2

/-- What is written where the directories above it are is carried. -/
theorem writeText_carries (sound : disk.Sound)
    (above : ∀ reached ∈ path.above disk.current, disk.directoryAt reached = true)
    (ran : disk.writeText path text = (.ok (), next)) : next.Carries path := by
  have touches := touches_writeText sound ran
  obtain ⟨location, writable, _⟩ := writeText_eq_ok ran
  obtain ⟨isGoal, allowed⟩ := writableAt_allowed writable
  rw [takeOutage_current] at isGoal
  rw [isGoal] at allowed
  exact Carries.touch ⟨above, allowed⟩ touches

/-- What is moved to where the directories above it are is carried. -/
theorem replace_carries (sound : disk.Sound)
    (above : ∀ reached ∈ target.above disk.current, disk.directoryAt reached = true)
    (ran : disk.replace source target = (.ok (), next)) : next.Carries target := by
  have touches := touches_replace sound ran
  obtain ⟨_, _, location, _, _, writable, _⟩ := replace_eq_ok ran
  obtain ⟨isGoal, allowed⟩ := writableAt_allowed writable
  rw [takeOutage_current] at isGoal
  rw [isGoal] at allowed
  exact Carries.touch ⟨above, allowed⟩ touches

end Disk

namespace Document

variable {disk next : Disk} {path : Path} {text : String} {outcome : Except Failure Unit}

/-- Writing a file touches the file at most and makes directories above it; where it fails, no
file is touched. -/
theorem writeBelow_any (sound : disk.Sound) (ran : writeBelow disk path text = (outcome, next)) :
    ∃ made, Disk.Touches [path.goal disk.current] [] made disk next ∧ disk.Raises made next ∧
      (path.EndsInName → made = path.above disk.current) ∧
      ∀ failure, outcome = .error failure → Disk.Touches [] [] made disk next := by
  refine ⟨Path.wayFrom disk.current path.enclosing, ?_, ?_, fun ends => (ends.above_eq _).symm, ?_⟩
  · cases writeBelow_iff.1 ran with
    | unprepared created =>
      exact (Disk.touches_createParent sound created).mono (by simp) (by simp) fun _ => id
    | unwritten created wrote | written created wrote =>
      have first := Disk.touches_createParent sound created
      have second := Disk.touches_writeText first.sound wrote
      rw [first.current] at second
      exact (first.mono (by simp) (by simp) fun _ => id).trans
        (second.mono (fun _ => id) (by simp) (by simp))
  · cases writeBelow_iff.1 ran with
    | unprepared created => exact Disk.raises_createParent sound created
    | unwritten created wrote | written created wrote =>
      exact (Disk.raises_createParent sound created).trans (Disk.raises_writeText wrote)
  · rintro failure rfl
    cases writeBelow_iff.1 ran with
    | unprepared created => exact Disk.touches_createParent sound created
    | unwritten created wrote =>
      have first := Disk.touches_createParent sound created
      rw [Disk.writeText_failed wrote]
      exact first.trans ((Disk.touches_takeOutage first.sound).mono (by simp) (by simp) (by simp))

/-- A file that was written, or was there when it could not be, is carried. -/
theorem writeBelow_carries (sound : disk.Sound) (ran : writeBelow disk path text = (outcome, next))
    {content : FileContent} (stands : next.entryAt? (path.goal disk.current) = some (.file content)) :
    disk.entryAt? (path.goal disk.current) = some (.file content) ∨ next.Carries path := by
  obtain ⟨made, _, _, _, failed⟩ := writeBelow_any sound ran
  cases isOutcome : outcome with
  | error failure => exact Or.inl ((failed failure isOutcome).file_before (by simp) (by simp) stands)
  | ok value =>
    rw [isOutcome] at ran
    cases writeBelow_iff.1 ran with
    | written created wrote =>
      have touches := Disk.touches_createParent sound created
      have above := Disk.createParent_above sound (Disk.writeText_endsInName wrote) created
      rw [← touches.current] at above
      exact Or.inr (Disk.writeText_carries touches.sound above wrote)

end Document

namespace Catalog

variable {catalog : Catalog} {disk next : Disk}

/-- Persisting a catalog makes directories above the catalog file at most. -/
theorem persist_raises (sound : disk.Sound) (ends : catalog.path.EndsInName)
    {outcome : Except Failure Unit} (ran : catalog.persist disk = (outcome, next)) :
    disk.Raises (catalog.path.above disk.current) next := by
  rw [ends.above_eq]
  cases persist_iff.1 ran with
  | unprepared created => exact Disk.raises_createParent sound created
  | unwritten created wrote =>
    exact (Disk.raises_createParent sound created).trans (Disk.raises_writeText wrote)
  | unmoved created wrote moved | replaced created wrote moved =>
    exact ((Disk.raises_createParent sound created).trans (Disk.raises_writeText wrote)).trans
      (Disk.raises_replace moved)

/-- The sibling of a catalog file is carried once it is written. -/
theorem carries_sibling {prepared written : Disk} (sound : disk.Sound)
    (ends : catalog.path.EndsInName)
    (beside : ∀ current, catalog.sibling.above current = catalog.path.above current)
    (created : disk.createParent catalog.path = (.ok (), prepared))
    (wrote : prepared.writeText catalog.sibling catalog.render = (.ok (), written)) :
    written.Carries catalog.sibling := by
  have first := Disk.touches_createParent sound created
  refine Disk.writeText_carries first.sound ?_ wrote
  rw [first.current, beside]
  exact Disk.createParent_above sound ends created

/-- A catalog file, or its sibling, that was written, or was there when it could not be, is
carried. -/
theorem persist_carries (sound : disk.Sound) (ends : catalog.path.EndsInName)
    (beside : catalog.sibling.components.dropLast = catalog.path.components.dropLast)
    {outcome : Except Failure Unit} (ran : catalog.persist disk = (outcome, next))
    {path : Path} (known : path = catalog.path ∨ path = catalog.sibling) {content : FileContent}
    (stands : next.entryAt? (path.goal disk.current) = some (.file content)) :
    disk.entryAt? (path.goal disk.current) = some (.file content) ∨ next.Carries path := by
  have same : ∀ current, catalog.sibling.above current = catalog.path.above current := by
    intro current
    unfold Path.above
    rw [beside]
  cases persist_iff.1 ran with
  | unprepared created =>
    exact Or.inl ((Disk.touches_createParent sound created).file_before (by simp) (by simp) stands)
  | unwritten created wrote =>
    rw [Disk.writeText_failed wrote, Disk.takeOutage_entryAt?] at stands
    exact Or.inl ((Disk.touches_createParent sound created).file_before (by simp) (by simp) stands)
  | unmoved created wrote moved =>
    have sibling := carries_sibling sound ends same created wrote
    have first := Disk.touches_createParent sound created
    have second := Disk.touches_writeText first.sound wrote
    have third := Disk.touches_replace second.sound moved
    rcases known with rfl | rfl
    · by_cases together : catalog.path.goal disk.current = catalog.sibling.goal disk.current
      · refine Or.inr (Disk.Carries.touch ⟨same _ ▸ sibling.above, ?_⟩ third)
        have allowed := sibling.allowed
        rw [second.current, first.current] at allowed ⊢
        rw [together]
        exact allowed
      · exact Or.inl ((persist_failed sound ran).file_before (by simpa using together) (by simp)
          stands)
    · exact Or.inr (sibling.touch third)
  | replaced created wrote moved =>
    have sibling := carries_sibling sound ends same created wrote
    have first := Disk.touches_createParent sound created
    have second := Disk.touches_writeText first.sound wrote
    rcases known with rfl | rfl
    · exact Or.inr (Disk.replace_carries second.sound (same _ ▸ sibling.above) moved)
    · exact Or.inr (sibling.touch (Disk.touches_replace second.sound moved))

end Catalog

end EoAssembly
