import EoAssembly.Document.Basic
import EoAssembly.Proofs.Disk.Walk

/-!
Contract: what the operations of a disk leave alone.

A disk is sound when it is a tree: whatever stands somewhere stands in a
directory.  An operation that succeeds touches the files it writes and creates
directories where nothing stood; no directory goes away and all else stays.

Owns `Disk.Sound`, `Disk.Touches`, and these facts for creating directories,
writing and replacing files.
-/

namespace EoAssembly.Disk

open Path (Component)

/-! ## Entries -/

theorem lookup_filter_ne {β : Type} (entries : List (Location × β)) {location other : Location}
    (different : other ≠ location) :
    (entries.filter fun item => item.1 != location).lookup other = entries.lookup other := by
  induction entries with
  | nil => rfl
  | cons item rest inductionHypothesis =>
    obtain ⟨place, value⟩ := item
    rw [List.filter_cons, List.lookup_cons]
    by_cases here : place = location
    · have apart : (other == place) = false := by
        rw [here]
        exact beq_eq_false_iff_ne.2 different
      simp only [here, bne_self_eq_false, Bool.false_eq_true, if_false] at apart ⊢
      rw [apart, inductionHypothesis]
    · have kept : (place != location) = true := bne_iff_ne.2 here
      simp only [kept, if_true, List.lookup_cons]
      rw [inductionHypothesis]

theorem entryAt?_put (disk : Disk) {location : Location} (notRoot : location ≠ []) (entry : Entry)
    (other : Location) :
    (disk.put location entry).entryAt? other =
      if other = location then some entry else disk.entryAt? other := by
  unfold entryAt? put
  by_cases same : other = location
  · simp [same, notRoot]
  · by_cases root : other = []
    · simp [root, Ne.symm notRoot]
    · have apart : (other == location) = false := beq_eq_false_iff_ne.2 same
      simp only [root, if_false, same, List.lookup_cons, apart]
      exact lookup_filter_ne disk.entries same

theorem entryAt?_erase (disk : Disk) (location other : Location) :
    (disk.erase location).entryAt? other =
      if other ≠ [] ∧ location.isPrefixOf other = true then none else disk.entryAt? other := by
  unfold entryAt? erase
  by_cases root : other = []
  · simp [root]
  · simp only [root, if_false, ne_eq, not_false_eq_true, true_and]
    induction disk.entries with
    | nil => simp
    | cons item rest inductionHypothesis =>
      obtain ⟨place, value⟩ := item
      by_cases found : other = place
      · subst found
        by_cases below : location.isPrefixOf other = true
        · simpa [List.filter_cons, below] using inductionHypothesis
        · simp [below]
      · have apart : (other == place) = false := beq_eq_false_iff_ne.2 found
        by_cases gone : location.isPrefixOf place = true
        · simpa [List.filter_cons, gone, List.lookup_cons, apart] using inductionHypothesis
        · simpa [List.filter_cons, gone, List.lookup_cons, apart] using inductionHypothesis

theorem directoryAt_iff {disk : Disk} {location : Location} :
    disk.directoryAt location = true ↔ disk.entryAt? location = some .directory := by
  unfold directoryAt
  exact beq_iff_eq

theorem directoryAt_of_none {disk : Disk} {location : Location}
    (nothing : disk.entryAt? location = none) : disk.directoryAt location = false := by
  unfold directoryAt
  rw [nothing]
  rfl

theorem directoryAt_of_file {disk : Disk} {location : Location} {content : FileContent}
    (stands : disk.entryAt? location = some (.file content)) :
    disk.directoryAt location = false := by
  unfold directoryAt
  rw [stands]
  rfl

theorem directoryAt_root (disk : Disk) : disk.directoryAt [] = true := by
  simp [directoryAt, entryAt?]

/-! ## Trees -/

/-- Whatever stands somewhere on a disk stands in a directory. -/
structure Sound (disk : Disk) : Prop where
  current : disk.directoryAt disk.current = true
  parents : ∀ location, disk.entryAt? location ≠ none → disk.directoryAt location.dropLast = true

theorem Sound.above {disk : Disk} (sound : disk.Sound) {behind : Location} :
    ∀ {location : Location}, behind ≠ [] → disk.entryAt? (location ++ behind) ≠ none →
      disk.directoryAt location = true := by
  induction behind with
  | nil => exact fun wrong => absurd rfl wrong
  | cons name rest inductionHypothesis =>
    intro location _ stands
    have split : location ++ name :: rest = location ++ [name] ++ rest := by simp
    rw [split] at stands
    have parent : disk.entryAt? (location ++ [name]) ≠ none := by
      cases rest with
      | nil => simpa using stands
      | cons second more =>
        rw [directoryAt_iff.1 (inductionHypothesis (by simp) stands)]
        simp
    have directory := sound.parents _ parent
    rw [List.dropLast_concat] at directory
    exact directory

theorem Sound.nothing_below_file {disk : Disk} (sound : disk.Sound) {location other : Location}
    {content : FileContent} (file : disk.entryAt? location = some (.file content))
    (below : location <+: other) (different : other ≠ location) :
    disk.entryAt? other = none := by
  obtain ⟨behind, same⟩ := below
  cases stands : disk.entryAt? other with
  | none => rfl
  | some entry =>
    have some_ : behind ≠ [] := by
      intro empty
      rw [empty, List.append_nil] at same
      exact different same.symm
    have standsBehind : disk.entryAt? (location ++ behind) ≠ none := by
      rw [same, stands]
      simp
    have directory := sound.above some_ standsBehind
    rw [directoryAt_iff, file] at directory
    exact absurd directory (by simp)

/-- A disk is sound when each of its entries stands in a directory. -/
theorem sound_of_entries {disk : Disk} (current : disk.directoryAt disk.current = true)
    (parents : ∀ item ∈ disk.entries, disk.directoryAt item.1.dropLast = true) : disk.Sound where
  current := current
  parents location stands := by
    unfold entryAt? at stands
    split at stands
    · next root =>
      rw [root]
      exact directoryAt_root disk
    · obtain ⟨entry, found⟩ := Option.ne_none_iff_exists'.1 stands
      obtain ⟨before, after, split, _⟩ := List.lookup_eq_some_iff.1 found
      exact parents (location, entry) (by rw [split]; simp)

/-! ## Touching files -/

/-- Between two disks only these files were written and only those went away, and
directories appeared at some of these locations. -/
structure Touches (written gone made : List Location) (before after : Disk) : Prop where
  current : after.current = before.current
  sound : after.Sound
  directories : ∀ location, before.directoryAt location = true →
    after.directoryAt location = true
  standing : ∀ location, location ∉ gone → before.entryAt? location ≠ none →
    after.entryAt? location ≠ none
  others : ∀ location, location ∉ written → location ∉ gone →
    after.entryAt? location = before.entryAt? location ∨
    (location ∈ made ∧ before.entryAt? location = none ∧
      after.entryAt? location = some .directory)

namespace Touches

variable {written gone made moreWritten moreGone moreMade : List Location}
  {before between after : Disk}

theorem refl (sound : before.Sound) : Touches written gone made before before :=
  ⟨rfl, sound, fun _ stays => stays, fun _ _ stands => stands, fun _ _ _ => Or.inl rfl⟩

theorem mono (touches : Touches written gone made before after)
    (fewerWritten : ∀ location ∈ written, location ∈ moreWritten)
    (fewerGone : ∀ location ∈ gone, location ∈ moreGone)
    (fewerMade : ∀ location ∈ made, location ∈ moreMade) :
    Touches moreWritten moreGone moreMade before after where
  current := touches.current
  sound := touches.sound
  directories := touches.directories
  standing location free := touches.standing location fun lost => free (fewerGone location lost)
  others location unwritten kept := by
    have same := touches.others location (fun wrote => unwritten (fewerWritten location wrote))
      (fun lost => kept (fewerGone location lost))
    refine same.imp_right ?_
    rintro ⟨reached, rest⟩
    exact ⟨fewerMade location reached, rest⟩

theorem trans (first : Touches written gone made before between)
    (second : Touches written gone made between after) :
    Touches written gone made before after where
  current := second.current.trans first.current
  sound := second.sound
  directories location stays := second.directories location (first.directories location stays)
  standing location free stands := second.standing location free (first.standing location free stands)
  others location unwritten kept := by
    rcases first.others location unwritten kept with same | ⟨reached, none, directory⟩
    · rcases second.others location unwritten kept with sameAgain | ⟨reached, none, directory⟩
      · exact Or.inl (sameAgain.trans same)
      · exact Or.inr ⟨reached, same ▸ none, directory⟩
    · rcases second.others location unwritten kept with sameAgain | ⟨_, none, _⟩
      · exact Or.inr ⟨reached, none, sameAgain.trans directory⟩
      · rw [directory] at none
        exact absurd none (by simp)

theorem passable (touches : Touches written gone made before after) {path : Path}
    (passable : before.Passable path) : after.Passable path := by
  intro passed member
  rw [touches.current] at member
  exact touches.directories passed (passable passed member)

/-- What stands where nothing is written still stands there. -/
theorem stays (touches : Touches written gone made before after) {location : Location}
    {entry : Entry} (unwritten : location ∉ written) (kept : location ∉ gone)
    (stands : before.entryAt? location = some entry) : after.entryAt? location = some entry := by
  rcases touches.others location unwritten kept with same | ⟨_, none, _⟩
  · rw [same]
    exact stands
  · rw [stands] at none
    exact absurd none (by simp)

/-- Where the operation does not reach, all stays as it was. -/
theorem untouched (touches : Touches written gone made before after) {location : Location}
    (unwritten : location ∉ written) (kept : location ∉ gone) (unreached : location ∉ made) :
    after.entryAt? location = before.entryAt? location := by
  rcases touches.others location unwritten kept with same | ⟨reached, _⟩
  · exact same
  · exact absurd reached unreached

/-- Nothing appears where the operation does not reach. -/
theorem none_stays (touches : Touches written gone made before after) {location : Location}
    (unwritten : location ∉ written) (kept : location ∉ gone) (unreached : location ∉ made)
    (nothing : before.entryAt? location = none) : after.entryAt? location = none := by
  rw [touches.untouched unwritten kept unreached]
  exact nothing

/-- A path that leads to something keeps doing so, unless its goal goes away. -/
theorem exists?_stays (touches : Touches written gone made before after) {path : Path}
    (kept : path.goal before.current ∉ gone) (found : before.exists? path = true) :
    after.exists? path = true := by
  obtain ⟨entry, stands⟩ := exists?_iff.1 found
  unfold exists?
  obtain ⟨some_, passable, here⟩ := entry_eq_some stands
  have still := touches.standing _ kept (by rw [here]; simp)
  unfold entry? at stands ⊢
  rw [resolve?_of_passable some_ (touches.passable passable), touches.current]
  rw [resolve?_of_passable some_ passable] at stands
  simp only [here] at stands
  simp only
  cases now : after.entryAt? (path.goal before.current) with
  | none => exact absurd now still
  | some other =>
    cases other with
    | directory => rfl
    | file content =>
      -- a path that leads to directories only led to one, which is still there
      cases entry with
      | directory =>
        have directory := touches.directories _ (directoryAt_iff.2 here)
        rw [directoryAt_iff, now] at directory
        exact absurd directory (by simp)
      | file old =>
        cases ends : path.endsAtDirectory with
        | true => simp [ends] at stands
        | false => simp

end Touches

/-! ## Single operations -/

theorem takeOutage_entryAt? (disk : Disk) (location : Location) :
    disk.takeOutage.2.entryAt? location = disk.entryAt? location := by
  unfold takeOutage
  split <;> rfl

theorem takeOutage_current (disk : Disk) : disk.takeOutage.2.current = disk.current := by
  unfold takeOutage
  split <;> rfl

theorem touches_takeOutage {disk : Disk} (sound : disk.Sound) :
    Touches [] [] [] disk disk.takeOutage.2 where
  current := takeOutage_current disk
  sound := by
    constructor
    · rw [directoryAt, takeOutage_entryAt?, takeOutage_current]
      exact sound.current
    · intro location stands
      rw [directoryAt, takeOutage_entryAt?]
      rw [takeOutage_entryAt?] at stands
      exact sound.parents location stands
  directories location stays := by
    rw [directoryAt, takeOutage_entryAt?]
    exact stays
  standing location _ stands := by
    rw [takeOutage_entryAt?]
    exact stands
  others location _ _ := Or.inl (takeOutage_entryAt? disk location)

theorem touches_put {disk : Disk} (sound : disk.Sound) {location : Location} (entry : Entry)
    (notRoot : location ≠ []) (parent : disk.directoryAt location.dropLast = true)
    (replaceable : disk.directoryAt location = true → entry = .directory) :
    Touches [location] [] [] disk (disk.put location entry) := by
  have directories : ∀ other, disk.directoryAt other = true →
      (disk.put location entry).directoryAt other = true := by
    intro other stays
    rw [directoryAt_iff, entryAt?_put disk notRoot]
    split
    · next same =>
      rw [same] at stays
      rw [replaceable stays]
    · exact directoryAt_iff.1 stays
  refine ⟨rfl, ⟨directories _ sound.current, ?_⟩, directories, ?_, ?_⟩
  · intro other stands
    rw [entryAt?_put disk notRoot] at stands
    split at stands
    · next same =>
      rw [same]
      exact directories _ parent
    · exact directories _ (sound.parents other stands)
  · intro other _ stands
    rw [entryAt?_put disk notRoot]
    split
    · simp
    · exact stands
  · intro other free _
    rw [entryAt?_put disk notRoot, if_neg fun same => free (List.mem_singleton.2 same)]
    exact Or.inl rfl

theorem touches_erase {disk : Disk} (sound : disk.Sound) {location : Location}
    {content : FileContent} (file : disk.entryAt? location = some (.file content)) :
    Touches [] [location] [] disk (disk.erase location) := by
  have others : ∀ other, other ≠ location →
      (disk.erase location).entryAt? other = disk.entryAt? other := by
    intro other different
    rw [entryAt?_erase]
    split
    · next below =>
      exact (sound.nothing_below_file file (List.isPrefixOf_iff_prefix.1 below.2) different).symm
    · rfl
  have directories : ∀ other, disk.directoryAt other = true →
      (disk.erase location).directoryAt other = true := by
    intro other stays
    have different : other ≠ location := by
      intro same
      rw [same, directoryAt_iff, file] at stays
      exact absurd stays (by simp)
    rw [directoryAt_iff, others other different]
    exact directoryAt_iff.1 stays
  refine ⟨rfl, ⟨directories _ sound.current, ?_⟩, directories, ?_, ?_⟩
  · intro other stands
    rw [entryAt?_erase] at stands
    split at stands
    · exact absurd rfl stands
    · exact directories _ (sound.parents other stands)
  · intro other kept stands
    rw [others other fun same => kept (List.mem_singleton.2 same)]
    exact stands
  · intro other _ kept
    exact Or.inl (others other fun same => kept (List.mem_singleton.2 same))

/-- Creating directories along components touches no file. -/
theorem touches_createAlong {components : List Component} {disk next : Disk} (sound : disk.Sound)
    {location : Location} (here : disk.directoryAt location = true) {outcome : Except Refusal Unit}
    (ran : disk.createAlong location components = (outcome, next)) :
    Touches [] [] (Path.wayFrom location components) disk next := by
  induction components generalizing disk location with
  | nil =>
    rw [← (Prod.mk.inj ran).2]
    exact Touches.refl sound
  | cons component rest inductionHypothesis =>
    cases component with
    | root => exact inductionHypothesis sound (directoryAt_root disk) ran
    | here => exact inductionHypothesis sound here ran
    | up =>
      have parent := sound.parents location (by rw [directoryAt_iff.1 here]; simp)
      exact inductionHypothesis sound parent ran
    | named name =>
      have later : ∀ reached ∈ Path.wayFrom (location ++ [name]) rest,
          reached ∈ Path.wayFrom location (.named name :: rest) := fun reached member =>
        List.mem_cons_of_mem _ member
      simp only [createAlong] at ran
      split at ran
      · next stands =>
        have directory := directoryAt_iff.2 stands
        exact (inductionHypothesis sound directory ran).mono (fun _ => id) (fun _ => id) later
      · rw [← (Prod.mk.inj ran).2]
        exact Touches.refl sound
      · next nothing =>
        split at ran
        · have notRoot : location ++ [name] ≠ [] := by simp
          have parent : disk.directoryAt (location ++ [name]).dropLast = true := by
            rw [List.dropLast_concat]
            exact here
          have put := touches_put sound .directory notRoot parent fun _ => rfl
          have made : Touches [] [] (Path.wayFrom location (.named name :: rest)) disk
              (disk.put (location ++ [name]) .directory) := by
            refine ⟨put.current, put.sound, put.directories, put.standing, fun other _ _ => ?_⟩
            rw [entryAt?_put disk notRoot]
            split
            · next same =>
              rw [same]
              exact Or.inr ⟨List.mem_cons_self, nothing, rfl⟩
            · exact Or.inl rfl
          have created : (disk.put (location ++ [name]) .directory).directoryAt
              (location ++ [name]) = true := by
            rw [directoryAt_iff, entryAt?_put disk notRoot, if_pos rfl]
          have behind := inductionHypothesis put.sound created ran
          exact made.trans (behind.mono (fun _ => id) (fun _ => id) later)
        · rw [← (Prod.mk.inj ran).2]
          exact Touches.refl sound

/-- The parent of a file is created along the components of its directory. -/
theorem createParent_eq (disk : Disk) (path : Path) :
    disk.createParent path = disk.createAlong disk.current path.enclosing := by
  unfold createParent Path.enclosing
  cases path.parent? with
  | none => rfl
  | some parent => rfl

/-- Creating the parent of a file touches no file. -/
theorem touches_createParent {disk next : Disk} (sound : disk.Sound) {path : Path}
    {outcome : Except Refusal Unit} (ran : disk.createParent path = (outcome, next)) :
    Touches [] [] (Path.wayFrom disk.current path.enclosing) disk next := by
  rw [createParent_eq] at ran
  exact touches_createAlong sound sound.current ran

theorem writableAt_ok {disk : Disk} {path : Path} {location : Location}
    (writable : disk.writableAt path = .ok location) :
    path.EndsInName ∧ disk.Passable path ∧ location = path.goal disk.current ∧
      disk.directoryAt location.dropLast = true ∧ disk.directoryAt location = false := by
  unfold writableAt at writable
  cases leads : disk.resolve? path with
  | none => simp [leads] at writable
  | some found =>
    obtain ⟨_, passable, same⟩ := passable_of_resolve? leads
    simp only [leads] at writable
    split at writable
    · exact absurd writable (by simp)
    · next open_ =>
      split at writable
      · exact absurd writable (by simp)
      · next inDirectory =>
        split at writable
        · have here : found = location := Except.ok.inj writable
          simp only [Bool.or_eq_true, not_or, Bool.not_eq_true] at open_
          rw [here] at same open_ inDirectory
          exact ⟨Path.endsInName_iff.2 open_.1, passable, same, by simpa using inDirectory,
            open_.2⟩
        · exact absurd writable (by simp)

theorem notRoot_of_writable {disk : Disk} {location : Location}
    (file : disk.directoryAt location = false) : location ≠ [] := by
  intro root
  rw [root, directoryAt_root] at file
  exact absurd file (by simp)

/-- Putting a file where one can be written touches that file. -/
theorem touches_put_file {disk : Disk} (sound : disk.Sound) {location : Location}
    (content : FileContent) (parent : disk.directoryAt location.dropLast = true)
    (noDirectory : disk.directoryAt location = false) :
    Touches [location] [] [] disk (disk.put location (.file content)) ∧
      (disk.put location (.file content)).entryAt? location = some (.file content) := by
  have notRoot := notRoot_of_writable noDirectory
  constructor
  · refine touches_put sound _ notRoot parent fun wrong => ?_
    rw [noDirectory] at wrong
    exact absurd wrong (by simp)
  · rw [entryAt?_put disk notRoot, if_pos rfl]

theorem writeText_eq_ok {disk next : Disk} {path : Path} {text : String}
    (ran : disk.writeText path text = (.ok (), next)) :
    ∃ location, disk.takeOutage.2.writableAt path = .ok location ∧
      next = disk.takeOutage.2.put location (.file (.text text)) := by
  unfold writeText writeFile at ran
  generalize disk.takeOutage = taken at ran
  obtain ⟨forced, ready⟩ := taken
  simp only at ran ⊢
  split at ran
  · exact absurd (Prod.mk.inj ran).1 (by simp)
  · split at ran
    · exact absurd (Prod.mk.inj ran).1 (by simp)
    · next location writable => exact ⟨location, writable, (Prod.mk.inj ran).2.symm⟩

theorem writeText_endsInName {disk next : Disk} {path : Path} {text : String}
    (ran : disk.writeText path text = (.ok (), next)) : path.EndsInName := by
  obtain ⟨location, writable, _⟩ := writeText_eq_ok ran
  exact (writableAt_ok writable).1

/-- A file that was written stands at the goal of its path. -/
theorem writeText_ok {disk next : Disk} (sound : disk.Sound) {path : Path} {text : String}
    (ran : disk.writeText path text = (.ok (), next)) :
    disk.Passable path ∧ Touches [path.goal disk.current] [] [] disk next ∧
      next.entryAt? (path.goal disk.current) = some (.file (.text text)) := by
  have moved := touches_takeOutage sound
  have samePassable : disk.takeOutage.2.Passable path ↔ disk.Passable path :=
    passable_congr (takeOutage_current disk) fun passed _ => takeOutage_entryAt? disk passed
  obtain ⟨location, writable, result⟩ := writeText_eq_ok ran
  obtain ⟨_, passable, here, parent, noDirectory⟩ := writableAt_ok writable
  rw [moved.current] at here
  obtain ⟨put, stands⟩ := touches_put_file moved.sound (.text text) parent noDirectory
  rw [result, ← here]
  exact ⟨samePassable.1 passable, (moved.mono (by simp) (by simp) (by simp)).trans put, stands⟩

theorem replace_eq_ok {disk next : Disk} {source target : Path}
    (ran : disk.replace source target = (.ok (), next)) :
    ∃ origin content location, disk.takeOutage.2.resolve? source = some origin ∧
      Disk.entry? disk.takeOutage.2 source = some (.file content) ∧
      disk.takeOutage.2.writableAt target = .ok location ∧
      next = (disk.takeOutage.2.erase origin).put location (.file content) := by
  unfold replace at ran
  generalize disk.takeOutage = taken at ran
  obtain ⟨forced, ready⟩ := taken
  simp only at ran ⊢
  split at ran
  · exact absurd (Prod.mk.inj ran).1 (by simp)
  · split at ran
    · next origin content location leads file writable =>
      exact ⟨origin, content, location, leads, file, writable, (Prod.mk.inj ran).2.symm⟩
    · exact absurd (Prod.mk.inj ran).1 (by simp)
    · exact absurd (Prod.mk.inj ran).1 (by simp)

theorem replace_endsInName {disk next : Disk} {source target : Path}
    (ran : disk.replace source target = (.ok (), next)) : target.EndsInName := by
  obtain ⟨_, _, _, _, _, writable, _⟩ := replace_eq_ok ran
  exact (writableAt_ok writable).1

/-- A replaced file stands at the goal of its path, and the file it was is gone. -/
theorem replace_ok {disk next : Disk} (sound : disk.Sound) {source target : Path}
    (ran : disk.replace source target = (.ok (), next)) :
    disk.Passable target ∧
      Touches [target.goal disk.current] [source.goal disk.current] [] disk next ∧
      ∃ content, disk.entryAt? (source.goal disk.current) = some (.file content) ∧
        next.entryAt? (target.goal disk.current) = some (.file content) := by
  have moved := touches_takeOutage sound
  have sameEntries := takeOutage_entryAt? disk
  have samePassable : disk.takeOutage.2.Passable target ↔ disk.Passable target :=
    passable_congr (takeOutage_current disk) fun passed _ => takeOutage_entryAt? disk passed
  obtain ⟨origin, content, location, leads, file, writable, result⟩ := replace_eq_ok ran
  obtain ⟨_, passable, here, parent, noDirectory⟩ := writableAt_ok writable
  obtain ⟨_, _, sameOrigin⟩ := passable_of_resolve? leads
  have stands := (entry_eq_some file).2.2
  rw [← sameOrigin] at stands
  rw [moved.current] at here sameOrigin
  have erased := touches_erase moved.sound stands
  -- the file that goes away is no directory, so the target can still be written
  have gone : (disk.takeOutage.2.erase origin).directoryAt location = false := by
    rw [Bool.eq_false_iff]
    intro directory
    rw [directoryAt_iff, entryAt?_erase] at directory
    split at directory
    · exact absurd directory (by simp)
    · rw [← directoryAt_iff, noDirectory] at directory
      exact absurd directory (by simp)
  obtain ⟨put, placed⟩ := touches_put_file erased.sound content
    (erased.directories _ parent) gone
  rw [result, ← here, ← sameOrigin]
  refine ⟨samePassable.1 passable, ?_, content, ?_, placed⟩
  · exact ((moved.mono (by simp) (by simp) (by simp)).trans
      (erased.mono (by simp) (by simp) (by simp))).trans (put.mono (by simp) (by simp) (by simp))
  · rw [← sameEntries]
    exact stands

end EoAssembly.Disk

namespace EoAssembly.Document

open Disk (Touches)

variable {disk next : Disk} {path : Path} {text : String}

theorem load_of_text (stands : disk.entry? path = some (.file (.text text))) :
    load disk path = ofText text path.text := by
  unfold load
  rw [Disk.readText_eq_ok.2 stands]

/-- A document is loaded when a text is found that reads as it. -/
theorem load_eq_ok {document : Document} : load disk path = .ok document ↔
    ∃ text, disk.entry? path = some (.file (.text text)) ∧
      ofText text path.text = .ok document := by
  simp only [← Disk.readText_eq_ok]
  unfold load
  cases disk.readText path with
  | error refusal => simp
  | ok text => simp

theorem load_congr {first second : Disk} (same : second.entry? path = first.entry? path) :
    load second path = load first path := by
  unfold load
  rw [Disk.readText_congr same]

/-- How writing a file below new directories ends: at the directories, at the file, or with both
there. -/
inductive WritesBelow (disk : Disk) (path : Path) (text : String) :
    Except Failure Unit → Disk → Prop
  | unprepared {refusal : Refusal} {next : Disk}
      (created : disk.createParent path = (.error refusal, next)) :
      WritesBelow disk path text (.error (.host refusal.message)) next
  | unwritten {prepared next : Disk} {refusal : Refusal}
      (created : disk.createParent path = (.ok (), prepared))
      (wrote : prepared.writeText path text = (.error refusal, next)) :
      WritesBelow disk path text (.error (writeRefused path refusal)) next
  | written {prepared next : Disk}
      (created : disk.createParent path = (.ok (), prepared))
      (wrote : prepared.writeText path text = (.ok (), next)) :
      WritesBelow disk path text (.ok ()) next

theorem writeBelow_iff {outcome : Except Failure Unit} :
    writeBelow disk path text = (outcome, next) ↔ WritesBelow disk path text outcome next := by
  constructor
  · intro ran
    unfold writeBelow at ran
    split at ran
    · next created =>
      obtain ⟨rfl, rfl⟩ := Prod.mk.inj ran
      exact .unprepared created
    · next created =>
      split at ran
      · next wrote =>
        obtain ⟨rfl, rfl⟩ := Prod.mk.inj ran
        exact .unwritten created wrote
      · next wrote =>
        obtain ⟨rfl, rfl⟩ := Prod.mk.inj ran
        exact .written created wrote
  · intro ends
    unfold writeBelow
    cases ends with
    | unprepared created => rw [created]
    | unwritten created wrote | written created wrote =>
      rw [created]
      simp only [wrote]

/-- A text file that was written below new directories stands at the goal of its path. -/
theorem writeBelow_ok (sound : disk.Sound) (ran : writeBelow disk path text = (.ok (), next)) :
    path.EndsInName ∧ next.Passable path ∧
      Touches [path.goal disk.current] [] (path.way disk.current) disk next ∧
      next.entryAt? (path.goal disk.current) = some (.file (.text text)) := by
  cases writeBelow_iff.1 ran with
  | written created wrote =>
    have ends := Disk.writeText_endsInName wrote
    have prepared := Disk.touches_createParent sound created
    obtain ⟨passable, touches, stands⟩ := Disk.writeText_ok prepared.sound wrote
    rw [prepared.current] at touches stands
    refine ⟨ends, touches.passable passable, ?_, stands⟩
    exact (prepared.mono (by simp) (by simp) (ends.way_of_enclosing _)).trans
      (touches.mono (fun _ => id) (by simp) (by simp))

end EoAssembly.Document
