import EoAssembly.Proofs.Catalog.Written
import EoAssembly.Proofs.Disk.Raised
import EoAssembly.Proofs.Disk.Tidy

/-!
Contract: writes that are out of each other's way may change places.

An operation that succeeds on one disk succeeds on every disk with the same entries that forces
no failure, and leaves the same entries.  A write that succeeds leaves its file, the directories
above it, and all else as it was; so two writes succeed in either order and leave the same
entries, unless the file of one is in the place of the other or of a directory above it.

Owns what operations make of disks that are alike, the entries that a write leaves, and
`Document.writeAll`, lists of writes, with the law that two of them may change places.
-/

namespace EoAssembly

open Path (Component)

/-! ## Disks that are alike -/

namespace Disk

variable {first second third next : Disk} {path : Path} {text : String} {location : Location}

namespace Alike

theorem refl (disk : Disk) : disk.Alike disk := ⟨rfl, fun _ => rfl⟩

theorem symm (alike : first.Alike second) : second.Alike first :=
  ⟨alike.current.symm, fun location => (alike.entries location).symm⟩

theorem trans (left : first.Alike second) (right : second.Alike third) : first.Alike third where
  current := right.current.trans left.current
  entries location := (right.entries location).trans (left.entries location)

theorem directoryAt (alike : first.Alike second) (location : Location) :
    second.directoryAt location = first.directoryAt location :=
  directoryAt_congr (alike.entries location)

theorem sameDirectories (alike : first.Alike second) : first.SameDirectories second :=
  ⟨alike.current, alike.directoryAt⟩

theorem sound (alike : first.Alike second) (sound : first.Sound) : second.Sound where
  current := by
    rw [alike.directoryAt, alike.current]
    exact sound.current
  parents location stands := by
    rw [alike.entries] at stands
    rw [alike.directoryAt]
    exact sound.parents location stands

theorem put (alike : first.Alike second) (notRoot : location ≠ []) (entry : Entry) :
    (first.put location entry).Alike (second.put location entry) where
  current := alike.current
  entries other := by
    rw [entryAt?_put _ notRoot, entryAt?_put _ notRoot, alike.entries]

theorem erase (alike : first.Alike second) (location : Location) :
    (first.erase location).Alike (second.erase location) where
  current := alike.current
  entries other := by
    rw [entryAt?_erase, entryAt?_erase, alike.entries]

end Alike

theorem alike_takeOutage (disk : Disk) : disk.Alike disk.takeOutage.2 :=
  ⟨takeOutage_current disk, takeOutage_entryAt? disk⟩

namespace Alike

/-- Directories are created alike, whatever becomes of it. -/
theorem createAlong {components : List Component} {outcome : Except Refusal Unit}
    (alike : first.Alike second)
    (ran : first.createAlong location components = (outcome, next)) :
    ∃ last, second.createAlong location components = (outcome, last) ∧ next.Alike last := by
  induction components generalizing first second location with
  | nil =>
    obtain ⟨same, isNext⟩ := Prod.mk.inj ran
    rw [← same, ← isNext]
    exact ⟨second, rfl, alike⟩
  | cons component rest inductionHypothesis =>
    cases component with
    | root => exact inductionHypothesis alike ran
    | here => exact inductionHypothesis alike ran
    | up => exact inductionHypothesis alike ran
    | named name =>
      simp only [Disk.createAlong, alike.entries] at ran ⊢
      split at ran
      · exact inductionHypothesis alike ran
      · rw [← (Prod.mk.inj ran).1, ← (Prod.mk.inj ran).2]
        exact ⟨second, rfl, alike⟩
      · by_cases allowed : nameAllowed name = true
        · simp only [allowed, if_true] at ran ⊢
          exact inductionHypothesis (alike.put (by simp) .directory) ran
        · simp only [allowed] at ran ⊢
          rw [← (Prod.mk.inj ran).1, ← (Prod.mk.inj ran).2]
          exact ⟨second, rfl, alike⟩

theorem createParent (alike : first.Alike second)
    (ran : first.createParent path = (.ok (), next)) :
    ∃ last, second.createParent path = (.ok (), last) ∧ next.Alike last := by
  rw [createParent_eq] at ran
  rw [createParent_eq, alike.current]
  exact alike.createAlong ran

/-- A file that can be written can be written where no failure is forced. -/
theorem writeText (alike : first.Alike second) (calm : second.Calm)
    (ran : first.writeText path text = (.ok (), next)) :
    ∃ last, second.writeText path text = (.ok (), last) ∧ next.Alike last ∧ last.Calm := by
  obtain ⟨location, writable, isNext⟩ := writeText_eq_ok ran
  have both := (alike_takeOutage first).symm.trans alike
  have notRoot := notRoot_of_writable (writableAt_ok writable).2.2.2.2
  rw [← both.sameDirectories.writableAt] at writable
  rw [isNext]
  exact ⟨_, writeText_receives calm writable, both.put notRoot _, calm⟩

theorem replace {source target : Path} (alike : first.Alike second) (calm : second.Calm)
    (ran : first.replace source target = (.ok (), next)) :
    ∃ last, second.replace source target = (.ok (), last) ∧ next.Alike last ∧ last.Calm := by
  obtain ⟨origin, content, location, leads, stands, writable, isNext⟩ := replace_eq_ok ran
  have both := (alike_takeOutage first).symm.trans alike
  have notRoot := notRoot_of_writable (writableAt_ok writable).2.2.2.2
  rw [← both.sameDirectories.writableAt] at writable
  obtain ⟨some_, passable, isOrigin⟩ := passable_of_resolve? leads
  have passableThere := (both.sameDirectories.passable source).2 passable
  have leadsThere := resolve?_of_passable some_ passableThere
  rw [both.current, ← isOrigin] at leadsThere
  rw [← both.entry?] at stands
  refine ⟨(second.erase origin).put location (.file content), ?_, ?_, calm⟩
  · unfold Disk.replace
    rw [calm.takeOutage]
    simp only [leadsThere, stands, writable, Bool.false_eq_true, if_false]
  · rw [isNext]
    exact (both.erase origin).put notRoot _

end Alike

theorem calm_writeText {outcome : Except Refusal Unit} (calm : first.Calm)
    (ran : first.writeText path text = (outcome, next)) : next.Calm := by
  cases outcome with
  | error refusal =>
    rw [writeText_failed ran, calm.takeOutage]
    exact calm
  | ok value =>
    obtain ⟨location, _, isNext⟩ := writeText_eq_ok ran
    rw [isNext, calm.takeOutage]
    exact calm

end Disk

namespace Catalog

variable {catalog : Catalog} {first second next : Disk}

/-- A catalog file that can be written can be written where no failure is forced. -/
theorem persist_alike (alike : first.Alike second) (calm : second.Calm)
    (ran : catalog.persist first = (.ok (), next)) :
    ∃ last, catalog.persist second = (.ok (), last) ∧ next.Alike last ∧ last.Calm := by
  cases persist_iff.1 ran with
  | replaced created wrote moved =>
    obtain ⟨ready, createdThere, alikeReady⟩ := alike.createParent created
    have calmReady : ready.Calm := Disk.calm_createParent calm createdThere
    obtain ⟨filled, wroteThere, alikeFilled, calmFilled⟩ := alikeReady.writeText calmReady wrote
    obtain ⟨last, movedThere, alikeLast, calmLast⟩ := alikeFilled.replace calmFilled moved
    exact ⟨last, persist_iff.2 (.replaced createdThere wroteThere movedThere), alikeLast, calmLast⟩

end Catalog

/-! ## Single writes -/

namespace Document

variable {disk first second next last : Disk} {path other : Path} {text otherText : String}

theorem writeBelow_alike (alike : first.Alike second) (calm : second.Calm)
    (ran : writeBelow first path text = (.ok (), next)) :
    ∃ last, writeBelow second path text = (.ok (), last) ∧ next.Alike last ∧ last.Calm := by
  cases writeBelow_iff.1 ran with
  | written created wrote =>
    obtain ⟨ready, createdThere, alikeReady⟩ := alike.createParent created
    obtain ⟨last, wroteThere, alikeLast, calmLast⟩ :=
      alikeReady.writeText (Disk.calm_createParent calm createdThere) wrote
    exact ⟨last, writeBelow_iff.2 (.written createdThere wroteThere), alikeLast, calmLast⟩

theorem writeBelow_calm (calm : disk.Calm) (ran : writeBelow disk path text = (.ok (), next)) :
    next.Calm := by
  cases writeBelow_iff.1 ran with
  | written created wrote => exact Disk.calm_writeText (Disk.calm_createParent calm created) wrote

/-- A write that succeeds was received: its directories were there or could be made, and no
directory was in its place. -/
theorem receives_of_writeBelow (sound : disk.Sound)
    (ran : writeBelow disk path text = (.ok (), next)) : disk.Receives path := by
  cases writeBelow_iff.1 ran with
  | @written prepared _ created wrote =>
    have ends := Disk.writeText_endsInName wrote
    have touches := Disk.touches_createParent sound created
    have raises := Disk.raises_createParent sound created
    have above := Disk.createParent_above sound ends created
    obtain ⟨location, writable, _⟩ := Disk.writeText_eq_ok wrote
    rw [(Disk.sameDirectories_takeOutage prepared).writableAt] at writable
    obtain ⟨isGoal, allowed⟩ := Disk.writableAt_allowed writable
    have noDirectory := (Disk.writableAt_ok writable).2.2.2.2
    rw [isGoal, touches.current] at noDirectory allowed
    refine ⟨ends, fun reached member => ?_, fun wrong => ?_, ?_, allowed⟩
    · exact (raises reached (above reached member)).imp_right fun new => new.2
    · rw [above _ wrong] at noDirectory
      exact absurd noDirectory (by simp)
    · rw [Bool.eq_false_iff]
      intro directory
      rw [touches.directories _ directory] at noDirectory
      exact absurd noDirectory (by simp)

open Classical in
/-- A write that succeeds leaves its file, the directories above it, and all else as it was. -/
theorem entryAt?_writeBelow (sound : disk.Sound)
    (ran : writeBelow disk path text = (.ok (), next)) (location : Location) :
    next.entryAt? location =
      if location = path.goal disk.current then some (.file (.text text))
      else if location ∈ path.above disk.current then some .directory
      else disk.entryAt? location := by
  obtain ⟨ends, _, _, stands⟩ := writeBelow_ok sound ran
  obtain ⟨made, touches, _, isMade, _⟩ := writeBelow_any sound ran
  split
  · next here =>
    rw [here]
    exact stands
  · next apart =>
    split
    · next member =>
      cases writeBelow_iff.1 ran with
      | written created wrote =>
        have prepared := Disk.touches_createParent sound created
        have directory := Disk.createParent_above sound ends created location member
        exact Disk.directoryAt_iff.1
          ((Disk.touches_writeText prepared.sound wrote).directories location directory)
    · next free =>
      rw [isMade ends] at touches
      exact touches.untouched (by simpa using apart) (by simp) free

/-- Neither of two files is in the place of the other or of a directory above it. -/
structure Apart (current : Location) (path other : Path) : Prop where
  goals : path.goal current ≠ other.goal current
  above : path.goal current ∉ other.above current
  below : other.goal current ∉ path.above current

theorem Apart.symm {current : Location} (apart : Apart current path other) :
    Apart current other path :=
  ⟨apart.goals.symm, apart.below, apart.above⟩

/-- What a disk received before a write it receives after it, when the files are apart. -/
theorem receives_after (sound : disk.Sound) (ran : writeBelow disk other otherText = (.ok (), next))
    (apart : Apart disk.current path other) (receives : disk.Receives path) :
    next.Receives path := by
  obtain ⟨_, _, touches, _⟩ := writeBelow_ok sound ran
  have entries := entryAt?_writeBelow sound ran
  obtain ⟨ends, above, free, goal, allowed⟩ := receives
  refine ⟨ends, ?_, ?_, ?_, ?_⟩
  · rw [touches.current]
    intro reached member
    have elsewhere : reached ≠ other.goal disk.current := fun same => apart.below (same ▸ member)
    apply (above reached member).later
    rw [entries reached, if_neg elsewhere]
    split
    · exact Or.inr rfl
    · exact Or.inl rfl
  · rw [touches.current]
    exact free
  · rw [touches.current]
    have same := entries (path.goal disk.current)
    rw [if_neg apart.goals, if_neg apart.above] at same
    rw [Disk.directoryAt_congr same]
    exact goal
  · rw [touches.current]
    exact allowed

/-- What a disk receives after a write it received before it, when the files are apart. -/
theorem receives_before (sound : disk.Sound) (ran : writeBelow disk other otherText = (.ok (), next))
    (apart : Apart disk.current path other) (receives : next.Receives path) :
    disk.Receives path := by
  obtain ⟨_, _, touches, _⟩ := writeBelow_ok sound ran
  have entries := entryAt?_writeBelow sound ran
  have received := receives_of_writeBelow sound ran
  obtain ⟨ends, above, free, goal, allowed⟩ := receives
  rw [touches.current] at above free goal allowed
  refine ⟨ends, fun reached member => ?_, free, ?_, allowed⟩
  · have elsewhere : reached ≠ other.goal disk.current := fun same => apart.below (same ▸ member)
    have here := above reached member
    unfold Disk.Enterable Disk.directoryAt at here
    rw [entries reached, if_neg elsewhere] at here
    split at here
    · next shared => exact received.above reached shared
    · exact here
  · rw [Bool.eq_false_iff]
    intro directory
    rw [touches.directories _ directory] at goal
    exact absurd goal (by simp)

/-- Two writes whose files are apart may change places. -/
theorem writeBelow_swap (sound : disk.Sound) (calm : disk.Calm)
    (apart : Apart disk.current path other) (ran : writeBelow disk path text = (.ok (), first))
    (ranOther : writeBelow first other otherText = (.ok (), second)) :
    ∃ next last, writeBelow disk other otherText = (.ok (), next) ∧
      writeBelow next path text = (.ok (), last) ∧ second.Alike last ∧ last.Calm := by
  obtain ⟨_, _, touches, _⟩ := writeBelow_ok sound ran
  have received := receives_of_writeBelow sound ran
  have receivedOther : disk.Receives other :=
    receives_before sound ran apart.symm (receives_of_writeBelow touches.sound ranOther)
  obtain ⟨next, wroteOther, calmNext⟩ := writeBelow_receives receivedOther sound calm otherText
  obtain ⟨_, _, touchesOther, _⟩ := writeBelow_ok sound wroteOther
  have receivesThere := receives_after sound wroteOther apart received
  obtain ⟨last, wrote, calmLast⟩ :=
    writeBelow_receives receivesThere touchesOther.sound calmNext text
  obtain ⟨_, _, touchesSecond, _⟩ := writeBelow_ok touches.sound ranOther
  obtain ⟨_, _, touchesLast, _⟩ := writeBelow_ok touchesOther.sound wrote
  refine ⟨next, last, wroteOther, wrote, ⟨?_, fun location => ?_⟩, calmLast⟩
  · rw [touchesLast.current, touchesOther.current, touchesSecond.current, touches.current]
  · rw [entryAt?_writeBelow touchesOther.sound wrote, entryAt?_writeBelow touches.sound ranOther,
      entryAt?_writeBelow sound wroteOther, entryAt?_writeBelow sound ran, touches.current,
      touchesOther.current]
    have goals := apart.goals
    have above := apart.above
    have below := apart.below
    by_cases atPath : location = path.goal disk.current
    · rw [atPath]
      simp only [if_true, goals, above, if_false]
    · by_cases atOther : location = other.goal disk.current
      · rw [atOther]
        simp only [if_true, Ne.symm goals, below, if_false]
      · simp only [atPath, atOther, if_false]
        split <;> split <;> rfl

/-! ## Lists of writes -/

/-- Writes files one after the other, up to the first that is refused. -/
def writeAll (disk : Disk) : List (Path × String) → Except Failure Unit × Disk
  | [] => (.ok (), disk)
  | (path, text) :: rest =>
    match writeBelow disk path text with
    | (.error failure, next) => (.error failure, next)
    | (.ok (), next) => writeAll next rest

variable {files others : List (Path × String)}

theorem writeAll_cons : writeAll disk ((path, text) :: files) = (.ok (), last) ↔
    ∃ next, writeBelow disk path text = (.ok (), next) ∧
      writeAll next files = (.ok (), last) := by
  rw [writeAll]
  cases wrote : writeBelow disk path text with
  | mk outcome next =>
    cases outcome with
    | error failure => simp
    | ok value =>
      constructor
      · exact fun ran => ⟨next, rfl, ran⟩
      · rintro ⟨_, same, ran⟩
        rw [(Prod.mk.inj same).2]
        exact ran

theorem writeAll_append : writeAll disk (files ++ others) = (.ok (), last) ↔
    ∃ next, writeAll disk files = (.ok (), next) ∧ writeAll next others = (.ok (), last) := by
  induction files generalizing disk with
  | nil =>
    constructor
    · exact fun ran => ⟨disk, rfl, ran⟩
    · rintro ⟨next, same, ran⟩
      rw [(Prod.mk.inj same).2]
      exact ran
  | cons file rest inductionHypothesis =>
    obtain ⟨path, text⟩ := file
    rw [List.cons_append, writeAll_cons]
    simp only [inductionHypothesis, writeAll_cons]
    constructor
    · rintro ⟨between, wrote, next, ran, ranOthers⟩
      exact ⟨next, ⟨between, wrote, ran⟩, ranOthers⟩
    · rintro ⟨next, ⟨between, wrote, ran⟩, ranOthers⟩
      exact ⟨between, wrote, next, ran, ranOthers⟩

theorem writeAll_alike (alike : first.Alike second) (calm : second.Calm)
    (ran : writeAll first files = (.ok (), next)) :
    ∃ last, writeAll second files = (.ok (), last) ∧ next.Alike last ∧ last.Calm := by
  induction files generalizing first second with
  | nil =>
    rw [← (Prod.mk.inj ran).2]
    exact ⟨second, rfl, alike, calm⟩
  | cons file rest inductionHypothesis =>
    obtain ⟨path, text⟩ := file
    obtain ⟨between, wrote, ranRest⟩ := writeAll_cons.1 ran
    obtain ⟨there, wroteThere, alikeThere, calmThere⟩ := writeBelow_alike alike calm wrote
    obtain ⟨last, ranThere, alikeLast, calmLast⟩ := inductionHypothesis alikeThere calmThere ranRest
    exact ⟨last, writeAll_cons.2 ⟨there, wroteThere, ranThere⟩, alikeLast, calmLast⟩

theorem writeAll_sound (sound : disk.Sound) (ran : writeAll disk files = (.ok (), next)) :
    next.Sound ∧ next.current = disk.current := by
  induction files generalizing disk with
  | nil =>
    rw [← (Prod.mk.inj ran).2]
    exact ⟨sound, rfl⟩
  | cons file rest inductionHypothesis =>
    obtain ⟨path, text⟩ := file
    obtain ⟨between, wrote, ranRest⟩ := writeAll_cons.1 ran
    obtain ⟨_, _, touches, _⟩ := writeBelow_ok sound wrote
    obtain ⟨soundNext, current⟩ := inductionHypothesis touches.sound ranRest
    exact ⟨soundNext, current.trans touches.current⟩

theorem writeAll_calm (calm : disk.Calm) (ran : writeAll disk files = (.ok (), next)) :
    next.Calm := by
  induction files generalizing disk with
  | nil =>
    rw [← (Prod.mk.inj ran).2]
    exact calm
  | cons file rest inductionHypothesis =>
    obtain ⟨path, text⟩ := file
    obtain ⟨between, wrote, ranRest⟩ := writeAll_cons.1 ran
    exact inductionHypothesis (writeBelow_calm calm wrote) ranRest

/-- A write may come before writes whose files are apart from its own. -/
theorem writeAll_past (sound : disk.Sound) (calm : disk.Calm)
    (apart : ∀ file ∈ files, Apart disk.current file.1 other)
    (ran : writeAll disk files = (.ok (), first))
    (ranOther : writeBelow first other otherText = (.ok (), second)) :
    ∃ next last, writeBelow disk other otherText = (.ok (), next) ∧
      writeAll next files = (.ok (), last) ∧ second.Alike last ∧ last.Calm := by
  induction files generalizing disk with
  | nil =>
    rw [← (Prod.mk.inj ran).2] at ranOther
    exact ⟨second, second, ranOther, rfl, .refl second, writeBelow_calm calm ranOther⟩
  | cons file rest inductionHypothesis =>
    obtain ⟨path, text⟩ := file
    obtain ⟨apartHere, apartRest⟩ := List.forall_mem_cons.1 apart
    obtain ⟨between, wrote, ranRest⟩ := writeAll_cons.1 ran
    obtain ⟨_, _, touches, _⟩ := writeBelow_ok sound wrote
    rw [← touches.current] at apartRest
    -- First past the rest of the files, and then past the first of them.
    obtain ⟨early, late, wroteOther, ranAgain, alike, _⟩ :=
      inductionHypothesis touches.sound (writeBelow_calm calm wrote) apartRest ranRest
    obtain ⟨next, moved, wroteFirst, wroteThere, alikeMoved, calmMoved⟩ :=
      writeBelow_swap sound calm apartHere wrote wroteOther
    obtain ⟨last, ranMoved, alikeLast, calmLast⟩ := writeAll_alike alikeMoved calmMoved ranAgain
    exact ⟨next, last, wroteFirst, writeAll_cons.2 ⟨moved, wroteThere, ranMoved⟩,
      alike.trans alikeLast, calmLast⟩

/-- Lists of writes whose files are apart may change places. -/
theorem writeAll_swap (sound : disk.Sound) (calm : disk.Calm)
    (apart : ∀ file ∈ files, ∀ twin ∈ others, Apart disk.current file.1 twin.1)
    (ran : writeAll disk files = (.ok (), first))
    (ranOthers : writeAll first others = (.ok (), second)) :
    ∃ next last, writeAll disk others = (.ok (), next) ∧
      writeAll next files = (.ok (), last) ∧ second.Alike last ∧ last.Calm := by
  induction others generalizing disk first second with
  | nil =>
    rw [← (Prod.mk.inj ranOthers).2]
    exact ⟨disk, first, rfl, ran, .refl first, writeAll_calm calm ran⟩
  | cons file rest inductionHypothesis =>
    obtain ⟨path, text⟩ := file
    obtain ⟨between, wrote, ranRest⟩ := writeAll_cons.1 ranOthers
    obtain ⟨front, moved, wroteFirst, ranMoved, alike, calmMoved⟩ :=
      writeAll_past sound calm (fun twin member => apart twin member _ List.mem_cons_self) ran wrote
    obtain ⟨_, _, touches, _⟩ := writeBelow_ok sound wroteFirst
    obtain ⟨late, ranLate, alikeLate, calmLate⟩ := writeAll_alike alike calmMoved ranRest
    have apartRest : ∀ twin ∈ files, ∀ file ∈ rest, Apart front.current twin.1 file.1 := by
      rw [touches.current]
      exact fun twin member file among =>
        apart twin member file (List.mem_cons_of_mem _ among)
    obtain ⟨next, last, ranNext, ranLast, alikeLast, calmLast⟩ :=
      inductionHypothesis touches.sound (writeBelow_calm calm wroteFirst) apartRest ranMoved ranLate
    exact ⟨next, last, writeAll_cons.2 ⟨front, wroteFirst, ranNext⟩, ranLast,
      alikeLate.trans alikeLast, calmLast⟩

end Document

end EoAssembly
