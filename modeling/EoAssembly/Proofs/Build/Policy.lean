import EoAssembly.Proofs.Build.Chosen
import Mathlib.Data.List.Induction

/-!
Contract: which sources a pull fetches, and what it leaves alone.

Whether a name is fetched is decided by what stood at the places of its source and of
its log when the pull began: nothing that the pull does for one name is seen when it
comes to another.  So the pull asks the store for the chosen names in order and once
each, writes their sources and logs and no other file there, and records every name
that it seeks but those with a log alone.  A second pull finds nothing to do.

Owns the invariant of a pull `Underway`, `Policy`, and `pull_policy`.
-/

namespace EoAssembly.Build

open ObjectName (Placeable checkPlace placeable_of_checkPlace)

variable {settings : Settings} {remote : Remote} {own : Location → Prop} {file : Path}
  {start before after : Workspace} {names seen : List String} {name other : String}

/-! ## One name -/

/-- What pulling a name did, when what is fetched was decided at the start. -/
structure Handled (settings : Settings) (remote : Remote) (file : Path) (start : Workspace)
    (name : String) (table : Option HashTable) (before after : Workspace) : Prop where
  walkable : Walkable settings file start.disk.current after
  instant : after.instant = before.instant
  asked : sourcesAsked after.journal =
    sourcesAsked before.journal ++ chosenAmong settings start [name]
  files : ∀ location, Guarded settings start.disk.current location →
    location ∉ goalsOf settings start.disk.current (chosenAmong settings start [name]) →
    Spared (goalsOf settings start.disk.current (chosenAmong settings start [name])) before.disk
      after.disk location
  provided : name ∈ chosenAmong settings start [name] → ∃ text,
    (remote.fetch name before.disk).1 = .ok text ∧
    Provided settings after.disk name text before.instant
  alters : Alters name before.foreign after.foreign
  untouched : isLocal start.foreign name = true ∨ isLeft settings start name = true →
    after.foreign.find? name = before.foreign.find? name
  recorded : isLocal start.foreign name = false → isLeft settings start name = false →
    isRecorded after.foreign name (pulledPlace settings.target name) = true
  slot : ∀ text, before.slot.text = some text → after.slot = before.slot
  knows : Knows table after.slot
  pins : isLocal start.foreign name = false → checkPlace name = .ok () ∧ Pinnable after.slot name

/-- A name that nothing is fetched for, when what is done for it stays out of the guarded places. -/
theorem Handled.of_quiet {known : Option HashTable}
    (nothing : chosenAmong settings start [name] = [])
    (walkable : Walkable settings file start.disk.current after)
    (quiet : Quiet settings start.disk.current before after)
    (alters : Alters name before.foreign after.foreign)
    (untouched : isLocal start.foreign name = true ∨ isLeft settings start name = true →
      after.foreign.find? name = before.foreign.find? name)
    (recorded : isLocal start.foreign name = false → isLeft settings start name = false →
      isRecorded after.foreign name (pulledPlace settings.target name) = true)
    (knows : Knows known before.slot)
    (pins : isLocal start.foreign name = false →
      checkPlace name = .ok () ∧ Pinnable before.slot name) :
    Handled settings remote file start name known before after := by
  refine ⟨walkable, quiet.instant, ?_, fun location guarded _ => Or.inl (quiet.files location guarded),
    fun member => ?_, alters, untouched, recorded, fun _ _ => quiet.slot, quiet.slot ▸ knows,
    quiet.slot ▸ pins⟩
  · rw [nothing, List.append_nil, quiet.asked]
  · rw [nothing] at member
    exact absurd member (by simp)

/-- A name that has its source in the project is passed by. -/
theorem Handled.ofProject {known : Option HashTable}
    (walkable : Walkable settings file start.disk.current before) (knows : Knows known before.slot)
    (ofProject : isLocal start.foreign name = true) :
    Handled settings remote file start name known before before := by
  refine .of_quiet (chosenAmong_of_not (Or.inl ofProject)) walkable (.refl settings _ _)
    (.refl name _) (fun _ => rfl) (fun sought => ?_) knows (fun sought => ?_)
  all_goals
    rw [ofProject] at sought
    exact absurd sought (by simp)

/-- A name whose source and log are written, and which is recorded then. -/
theorem Handled.of_fetched {known : Option HashTable} {middle : Workspace} {text : String}
    {hash : Option String} (disjoint : Disjoint settings own file start.disk.current)
    (sought : isLocal start.foreign name = false) (chosen : isChosen settings start name = true)
    (passes : checkPlace name = .ok ()) (pins : Pinnable before.slot name)
    (knows : Knows known before.slot)
    (fetches : Fetches settings remote file start.disk.current name text before middle)
    (ran : (recordPulled settings remote name (pulledPlace settings.target name) hash).Yields
      middle () after) :
    Handled settings remote file start name known before after := by
  have placeable := placeable_of_checkPlace passes
  obtain ⟨walkable, quiet, alters, recorded⟩ :=
    recordPulled_alters fetches.walkable disjoint placeable ran
  have isSlot := quiet.slot.trans fetches.slot
  have one := chosenAmong_of_chosen sought chosen
  refine ⟨walkable, quiet.instant.trans fetches.instant, ?_, fun location guarded off => ?_,
    fun _ => ⟨text, fetches.answered, ?_⟩, fetches.foreign ▸ alters, fun still => ?_,
    fun _ _ => recorded, fun _ _ => isSlot, isSlot ▸ knows, fun _ => ⟨passes, isSlot ▸ pins⟩⟩
  · rw [one, quiet.asked, fetches.asked]
  · rw [one] at off ⊢
    have later : Spared [] middle.disk after.disk location :=
      Or.inl (quiet.files location guarded)
    have whole := (fetches.files location guarded off).trans later
    rwa [List.append_nil] at whole
  · refine fetches.provided.later placeable fetches.walkable walkable ?_
    rintro location (same | same)
    · exact quiet.files _ (same.symm ▸ guarded_pulledPlace placeable)
    · exact quiet.files _ (same.symm ▸ guarded_logPlace placeable)
  · rw [sought, isLeft_of_chosen chosen] at still
    exact absurd still (by simp)

/-- Seeing to the source of a name that is sought and pinned. -/
theorem pullPinned_handled {known : Option HashTable} {hash : Option String} {count : Nat}
    (walkable : Walkable settings file start.disk.current before)
    (disjoint : Disjoint settings own file start.disk.current) (store : remote.KeepsTo own)
    (sought : isLocal start.foreign name = false) (passes : checkPlace name = .ok ())
    (sameSource : before.disk.exists? (pulledPlace settings.target name) =
      start.disk.exists? (pulledPlace settings.target name))
    (sameLog : before.disk.exists? (logPlace settings.protocols name) =
      start.disk.exists? (logPlace settings.protocols name))
    (pins : Pinnable before.slot name) (knows : Knows known before.slot)
    (ran : (pullPinned settings remote name hash).Yields before count after) :
    Handled settings remote file start name known before after ∧
      count = (chosenAmong settings start [name]).length := by
  have placeable := placeable_of_checkPlace passes
  have choice : pullChoice before.disk settings.overwrite (pulledPlace settings.target name)
      (logPlace settings.protocols name) = if isChosen settings start name then .fetch else
        if isLeft settings start name then .leave else .keep := by
    rw [← pullChoice_eq]
    unfold pullChoice
    rw [sameSource, sameLog]
  have isFetch : pullChoice before.disk settings.overwrite (pulledPlace settings.target name)
      (logPlace settings.protocols name) = .fetch ↔ isChosen settings start name = true := by
    rw [choice]
    cases isChosen settings start name <;> cases isLeft settings start name <;> simp
  have isLeave : pullChoice before.disk settings.overwrite (pulledPlace settings.target name)
      (logPlace settings.protocols name) = .leave ↔
        isChosen settings start name = false ∧ isLeft settings start name = true := by
    rw [choice]
    cases isChosen settings start name <;> cases isLeft settings start name <;> simp
  have isKeep : pullChoice before.disk settings.overwrite (pulledPlace settings.target name)
      (logPlace settings.protocols name) = .keep ↔
        isChosen settings start name = false ∧ isLeft settings start name = false := by
    rw [choice]
    cases isChosen settings start name <;> cases isLeft settings start name <;> simp
  cases yields_pullPinned.1 ran with
  | fetched fetch ranFetch ranRecord =>
    have chosen := isFetch.1 fetch
    obtain ⟨text, fetches⟩ := fetchSource_writes walkable disjoint store placeable ranFetch
    refine ⟨.of_fetched disjoint sought chosen passes pins knows fetches ranRecord, ?_⟩
    rw [chosenAmong_of_chosen sought chosen]
    rfl
  | left leave =>
    obtain ⟨unchosen, left⟩ := isLeave.1 leave
    have nothing : chosenAmong settings start [name] = [] := chosenAmong_of_not (Or.inr unchosen)
    refine ⟨.of_quiet nothing walkable (.refl settings _ _) (.refl name _) (fun _ => rfl)
      (fun _ wrong => absurd (left.symm.trans wrong) (by simp)) knows fun _ => ⟨passes, pins⟩, ?_⟩
    rw [nothing]
    rfl
  | recorded keep _ ranRecord =>
    obtain ⟨unchosen, unleft⟩ := isKeep.1 keep
    have nothing : chosenAmong settings start [name] = [] := chosenAmong_of_not (Or.inr unchosen)
    obtain ⟨walkableAfter, quiet, alters, recorded⟩ :=
      recordPulled_alters walkable disjoint placeable ranRecord
    refine ⟨.of_quiet nothing walkableAfter quiet alters (fun which => absurd which ?_)
      (fun _ _ => recorded) knows fun _ => ⟨passes, pins⟩, ?_⟩
    · simp [sought, unleft]
    · rw [nothing]
      rfl
  | kept keep recorded =>
    have nothing : chosenAmong settings start [name] = [] :=
      chosenAmong_of_not (Or.inr (isKeep.1 keep).1)
    refine ⟨.of_quiet nothing walkable (.refl settings _ _) (.refl name _) (fun _ => rfl)
      (fun _ _ => recorded) knows fun _ => ⟨passes, pins⟩, ?_⟩
    rw [nothing]
    rfl

theorem pullName_handled {known : Option HashTable} {result : Nat × Option HashTable}
    (walkable : Walkable settings file start.disk.current before)
    (disjoint : Disjoint settings own file start.disk.current) (store : remote.KeepsTo own)
    (knows : Knows known before.slot)
    (sameRecord : before.foreign.find? name = start.foreign.find? name)
    (sameFiles : isLocal start.foreign name = false → Placeable name →
      before.disk.exists? (pulledPlace settings.target name) =
        start.disk.exists? (pulledPlace settings.target name) ∧
      before.disk.exists? (logPlace settings.protocols name) =
        start.disk.exists? (logPlace settings.protocols name))
    (ran : (pullName settings remote known name).Yields before result after) :
    Handled settings remote file start name result.2 before after ∧
      result.1 = (chosenAmong settings start [name]).length := by
  rcases yields_pullName.1 ran with ⟨ofProject, rfl, rfl⟩ | ⟨notLocal, passes, hash, ready, ranPinned,
    ranPull⟩
  · rw [isLocal_congr sameRecord] at ofProject
    refine ⟨.ofProject walkable knows ofProject, ?_⟩
    rw [chosenAmong_of_not (Or.inl ofProject)]
    rfl
  · rw [isLocal_congr sameRecord] at notLocal
    obtain ⟨sameSource, sameLog⟩ := sameFiles notLocal (placeable_of_checkPlace passes)
    obtain ⟨pins, knowsTable, kept⟩ := pinned_slot knows ranPinned
    obtain ⟨slot, journal, isReady, requests⟩ := pinned_frame ranPinned
    have walkableReady : Walkable settings file start.disk.current ready := by
      rw [isReady]
      exact ⟨walkable.sound, walkable.current, walkable.sorted, walkable.path, walkable.target,
        walkable.protocols, walkable.catalog⟩
    have sameAsked : sourcesAsked ready.journal = sourcesAsked before.journal := by
      rw [isReady]
      rcases requests with same | more
      · rw [same]
      · rw [more]
        exact sourcesAsked_table _
    have sameDisk : ready.disk = before.disk := by rw [isReady]
    have sameForeign : ready.foreign = before.foreign := by rw [isReady]
    have sameInstant : ready.instant = before.instant := by rw [isReady]
    obtain ⟨handled, counted⟩ := pullPinned_handled walkableReady disjoint store notLocal passes
      (sameDisk ▸ sameSource) (sameDisk ▸ sameLog) pins knowsTable ranPull
    exact ⟨⟨handled.walkable, handled.instant.trans sameInstant, sameAsked ▸ handled.asked,
      sameDisk ▸ handled.files, sameInstant ▸ sameDisk ▸ handled.provided,
      sameForeign ▸ handled.alters, sameForeign ▸ handled.untouched, handled.recorded,
      fun text isText => (handled.slot text (by rw [kept text isText]; exact isText)).trans
        (kept text isText), handled.knows, handled.pins⟩, counted⟩

/-! ## Names seen to -/

/-- What the store answered when it was asked for a name, after the names before it. -/
def Answered (settings : Settings) (remote : Remote) (start : Workspace) (names : List String)
    (name text : String) : Prop :=
  ∃ front back count reached, names = front ++ name :: back ∧
    (pullEach settings remote none front).Yields start count reached ∧
    (remote.fetch name reached.disk).1 = .ok text

theorem Answered.more {text : String} (answered : Answered settings remote start seen name text)
    (more : List String) : Answered settings remote start (seen ++ more) name text := by
  obtain ⟨front, back, count, reached, split, ran, fetched⟩ := answered
  exact ⟨front, back ++ more, count, reached, by simp [split], ran, fetched⟩

/-- What a pull did when it has seen to some names. -/
structure Underway (settings : Settings) (remote : Remote) (file : Path) (start : Workspace)
    (seen : List String) (present : Workspace) : Prop where
  walkable : Walkable settings file start.disk.current present
  instant : present.instant = start.instant
  asked : sourcesAsked present.journal =
    sourcesAsked start.journal ++ chosenAmong settings start seen
  files : ∀ location, Guarded settings start.disk.current location →
    location ∉ goalsOf settings start.disk.current (chosenAmong settings start seen) →
    Spared (goalsOf settings start.disk.current (chosenAmong settings start seen)) start.disk
      present.disk location
  provided : ∀ name ∈ chosenAmong settings start seen, ∃ text,
    Answered settings remote start seen name text ∧
    Provided settings present.disk name text start.instant
  untouched : ∀ name, name ∉ seen ∨ isLocal start.foreign name = true ∨
    isLeft settings start name = true → present.foreign.find? name = start.foreign.find? name
  recorded : ∀ name ∈ seen, isLocal start.foreign name = false →
    isLeft settings start name = false →
    isRecorded present.foreign name (pulledPlace settings.target name) = true
  optimized : ∀ id, (present.foreign.find? id).bind Record.optimized =
    (start.foreign.find? id).bind Record.optimized
  pins : ∀ name ∈ seen, isLocal start.foreign name = false →
    checkPlace name = .ok () ∧ Pinnable present.slot name

/-- The places of a name are off the ways to the places of other ones. -/
theorem off_goals {current location : Location} (disjoint : Disjoint settings own file current)
    (unnested : Unnested settings current names) (member : name ∈ names) (placeable : Placeable name)
    (others : ∀ other ∈ seen, other ∈ names ∧ name ≠ other ∧ Placeable other)
    (place : location = (pulledPlace settings.target name).goal current ∨
      location = (logPlace settings.protocols name).goal current) :
    ∀ goal ∈ goalsOf settings current seen, ¬location <+: goal := by
  intro goal isGoal
  obtain ⟨other, inSeen, isPlace⟩ := mem_goalsOf.1 isGoal
  obtain ⟨among, differs, placeableOther⟩ := others other inSeen
  obtain ⟨source, log⟩ := unnested name member other among differs
  rcases place with here | here <;> rcases isPlace with there | there <;> rw [here, there]
  · exact source
  · exact (source_apart_log disjoint placeable placeableOther).1
  · exact (source_apart_log disjoint placeableOther placeable).2
  · exact log

theorem guarded_place {current location : Location} (placeable : Placeable name)
    (place : location = (pulledPlace settings.target name).goal current ∨
      location = (logPlace settings.protocols name).goal current) :
    Guarded settings current location := by
  rcases place with same | same
  · exact same.symm ▸ guarded_pulledPlace placeable
  · exact same.symm ▸ guarded_logPlace placeable

namespace Underway

theorem at_start (walkable : Walkable settings file start.disk.current start) :
    Underway settings remote file start [] start where
  walkable := walkable
  instant := rfl
  asked := (List.append_nil _).symm
  files _ _ _ := Or.inl rfl
  provided _ member := absurd member (by simp [chosenAmong])
  untouched _ _ := rfl
  recorded _ member := absurd member (by simp)
  optimized _ := rfl
  pins _ member := absurd member (by simp)

/-- Nothing stands at the places of a name that did not stand there, when others are fetched. -/
theorem same_places (underway : Underway settings remote file start seen before)
    (walkable : Walkable settings file start.disk.current start)
    (disjoint : Disjoint settings own file start.disk.current)
    (unnested : Unnested settings start.disk.current names) (member : name ∈ names)
    (placeable : Placeable name)
    (others : ∀ other ∈ chosenAmong settings start seen, other ∈ names ∧ name ≠ other) :
    before.disk.exists? (pulledPlace settings.target name) =
      start.disk.exists? (pulledPlace settings.target name) ∧
    before.disk.exists? (logPlace settings.protocols name) =
      start.disk.exists? (logPlace settings.protocols name) := by
  have still : ∀ location, location = (pulledPlace settings.target name).goal start.disk.current ∨
      location = (logPlace settings.protocols name).goal start.disk.current →
      before.disk.entryAt? location = start.disk.entryAt? location := by
    intro location place
    have off := off_goals disjoint unnested member placeable
      (fun other (chosen : other ∈ chosenAmong settings start seen) => by
        obtain ⟨inSeen, sought, _⟩ := mem_chosenAmong.1 chosen
        exact ⟨(others other chosen).1, (others other chosen).2,
          placeable_of_checkPlace (underway.pins other inSeen sought).1⟩) place
    exact (underway.files location (guarded_place placeable place)
      fun isGoal => off location isGoal List.prefix_rfl).same off
  exact ⟨Disk.exists?_congr (walkable.entry_pulledPlace placeable underway.walkable
      (still _ (Or.inl rfl))),
    Disk.exists?_congr (walkable.entry_logPlace placeable underway.walkable
      (still _ (Or.inr rfl)))⟩

/-- Seeing to one more name leaves the places of the names that were chosen before. -/
theorem places_kept {table : Option HashTable}
    (underway : Underway settings remote file start seen before)
    (disjoint : Disjoint settings own file start.disk.current)
    (unnested : Unnested settings start.disk.current
      ((seen ++ [name]).filter fun name => !isLocal start.foreign name))
    (unseen : name ∉ seen) (handled : Handled settings remote file start name table before after) :
    ∀ other ∈ chosenAmong settings start seen, ∀ location,
      location = (pulledPlace settings.target other).goal start.disk.current ∨
        location = (logPlace settings.protocols other).goal start.disk.current →
      after.disk.entryAt? location = before.disk.entryAt? location := by
  intro other member location place
  obtain ⟨inSeen, sought, _⟩ := mem_chosenAmong.1 member
  have placeable := placeable_of_checkPlace (underway.pins other inSeen sought).1
  have off := off_goals disjoint unnested
    (List.mem_filter.2 ⟨List.mem_append_left _ inSeen, by simp [sought]⟩) placeable
    (fun twin (isChosen : twin ∈ chosenAmong settings start [name]) => by
      obtain ⟨isName, soughtTwin, _⟩ := mem_chosenAmong.1 isChosen
      obtain rfl := List.mem_singleton.1 isName
      exact ⟨List.mem_filter.2 ⟨List.mem_append_right _ isName, by simp [soughtTwin]⟩,
        fun same => unseen (same ▸ inSeen), placeable_of_checkPlace (handled.pins soughtTwin).1⟩)
    place
  exact (handled.files location (guarded_place placeable place)
    fun isGoal => off location isGoal List.prefix_rfl).same off

/-- One more name is seen to. -/
theorem next {table : Option HashTable} {count : Nat}
    (underway : Underway settings remote file start seen before)
    (disjoint : Disjoint settings own file start.disk.current)
    (unnested : Unnested settings start.disk.current
      ((seen ++ [name]).filter fun name => !isLocal start.foreign name))
    (unseen : name ∉ seen) (reaches : (pullEach settings remote none seen).Yields start count before)
    (handled : Handled settings remote file start name table before after) :
    Underway settings remote file start (seen ++ [name]) after := by
  have chosenOff := underway.places_kept disjoint unnested unseen handled
  refine ⟨handled.walkable, handled.instant.trans underway.instant, ?_,
    fun location guarded outside => ?_, fun other member => ?_, fun other which => ?_,
    fun other member sought notLeft => ?_, fun id => ?_, fun other member sought => ?_⟩
  · rw [handled.asked, underway.asked, chosenAmong_append, List.append_assoc]
  · unfold goalsOf at outside ⊢
    rw [chosenAmong_append, List.flatMap_append] at outside ⊢
    rw [List.mem_append, not_or] at outside
    exact (underway.files location guarded outside.1).trans
      (handled.files location guarded outside.2)
  · rw [chosenAmong_append, List.mem_append] at member
    rcases member with old | new
    · obtain ⟨inSeen, sought, _⟩ := mem_chosenAmong.1 old
      obtain ⟨text, answered, provided⟩ := underway.provided other old
      exact ⟨text, answered.more [name], provided.later
        (placeable_of_checkPlace (underway.pins other inSeen sought).1) underway.walkable
        handled.walkable (chosenOff other old)⟩
    · obtain rfl := List.mem_singleton.1 (mem_chosenAmong.1 new).1
      obtain ⟨text, answered, provided⟩ := handled.provided new
      rw [underway.instant] at provided
      exact ⟨text, ⟨seen, [], count, before, rfl, reaches, answered⟩, provided⟩
  · by_cases same : name = other
    · rw [← same] at which ⊢
      rw [handled.untouched (which.resolve_left (by simp))]
      exact underway.untouched name (Or.inl unseen)
    · rw [handled.alters.others other same]
      refine underway.untouched other (which.imp_left fun outside inSeen => ?_)
      exact outside (List.mem_append_left _ inSeen)
  · rcases List.mem_append.1 member with old | new
    · rw [isRecorded_congr (handled.alters.others other fun same => unseen (same ▸ old))]
      exact underway.recorded other old sought notLeft
    · obtain rfl := List.mem_singleton.1 new
      exact handled.recorded sought notLeft
  · rw [← underway.optimized id]
    by_cases same : name = id
    · rw [← same]
      exact handled.alters.optimized
    · rw [handled.alters.others id same]
  · rcases List.mem_append.1 member with old | new
    · obtain ⟨passes, pins⟩ := underway.pins other old sought
      exact ⟨passes, pins.later handled.slot⟩
    · obtain rfl := List.mem_singleton.1 new
      exact handled.pins sought

end Underway

/-- A pull sees to name after name. -/
theorem pullWith_underway {table : Option HashTable} {count : Nat}
    (walkable : Walkable settings file start.disk.current start)
    (disjoint : Disjoint settings own file start.disk.current) (store : remote.KeepsTo own)
    (distinct : names.Nodup)
    (unnested : Unnested settings start.disk.current
      (names.filter fun name => !isLocal start.foreign name))
    (ran : (pullWith settings remote none names).Yields start (count, table) after) :
    Underway settings remote file start names after ∧ Knows table after.slot ∧
      count = (chosenAmong settings start names).length := by
  -- The induction appends a name, since what was done for the names before it comes first.
  induction names using List.reverseRecOn generalizing after table count with
  | nil =>
    simp only [pullWith, Step.yields_pure, Prod.mk.injEq] at ran
    obtain ⟨⟨rfl, rfl⟩, rfl⟩ := ran
    exact ⟨.at_start walkable, fun _ wrong => absurd wrong (by simp), rfl⟩
  | append_singleton seen name inductionHypothesis =>
    obtain ⟨first, known, between, others, ranSeen, ranName, sum⟩ := pullWith_append.1 ran
    simp only [pullWith, Step.yields_bind, Step.yields_pure, Prod.mk.injEq] at ranName
    obtain ⟨result, last, ranName, _, _, ⟨rfl, rfl⟩, ⟨rfl, rfl⟩, rfl⟩ := ranName
    obtain ⟨distinctSeen, _, unseen⟩ := List.nodup_append.1 distinct
    have unseen : name ∉ seen := fun member => unseen name member name (by simp) rfl
    have unnestedSeen : Unnested settings start.disk.current
        (seen.filter fun name => !isLocal start.foreign name) := by
      intro one inOne two inTwo
      rw [List.filter_append] at unnested
      exact unnested one (List.mem_append_left _ inOne) two (List.mem_append_left _ inTwo)
    obtain ⟨underway, knows, counted⟩ := inductionHypothesis distinctSeen unnestedSeen ranSeen
    obtain ⟨handled, one⟩ := pullName_handled underway.walkable disjoint store knows
      (underway.untouched name (Or.inl unseen)) (fun sought placeable =>
        underway.same_places walkable disjoint unnested
          (List.mem_filter.2 ⟨List.mem_append_right _ (List.mem_singleton_self name), by simp [sought]⟩)
          placeable fun other chosen => by
            obtain ⟨inSeen, soughtOther, _⟩ := mem_chosenAmong.1 chosen
            exact ⟨List.mem_filter.2 ⟨List.mem_append_left _ inSeen, by simp [soughtOther]⟩,
              fun same => unseen (same ▸ inSeen)⟩) ranName
    refine ⟨underway.next disjoint unnested unseen (pullEach_iff_pullWith.2 ⟨known, ranSeen⟩) handled,
      handled.knows, ?_⟩
    rw [chosenAmong_append, List.length_append, ← counted, ← one, ← sum]
    rfl

/-! ## A second pull -/

/-- A name that a pull does nothing for, and does not ask for the table. -/
def Idle (settings : Settings) (present : Workspace) (name : String) : Prop :=
  Skipped settings present.disk present.foreign name ∧
    (isLocal present.foreign name = false → Pinnable present.slot name)

theorem pullEach_idle {known : Option HashTable} {present : Workspace}
    (knows : Knows known present.slot) (idle : ∀ name ∈ names, Idle settings present name) :
    (pullEach settings remote known names).Yields present 0 present := by
  induction names generalizing known with
  | nil => exact Step.yields_pure.2 ⟨rfl, rfl⟩
  | cons name rest inductionHypothesis =>
    have others := fun other member => idle other (List.mem_cons_of_mem name member)
    obtain ⟨skipped, pins⟩ := idle name List.mem_cons_self
    have one : ∃ table, (pullName settings remote known name).Yields present (0, table) present ∧
        Knows table present.slot := by
      cases ofProject : isLocal present.foreign name with
      | true => exact ⟨known, yields_pullName.2 (Or.inl ⟨ofProject, rfl, rfl⟩), knows⟩
      | false =>
        obtain ⟨hash, table, ranPinned, knowsTable⟩ :=
          pinned_again remote (pins ofProject) knows
        obtain ⟨passes, nothing⟩ := skipped.pullPinned remote hash ofProject
        exact ⟨table, yields_pullName.2 (Or.inr ⟨ofProject, passes, hash, present, ranPinned,
          nothing⟩), knowsTable⟩
    obtain ⟨table, ran, knowsTable⟩ := one
    exact yields_pullEach_cons.2 ⟨0, table, present, 0, ran, inductionHypothesis knowsTable others,
      rfl⟩

/-- The settings with sources kept that are there. -/
def keeping (settings : Settings) : Settings := { settings with overwrite := false }

/-- A document that a record refers to holds what it held. -/
def SameDocuments (start final : Workspace) : Prop :=
  ∀ record ∈ start.foreign.records, ∀ document, record.optimized = some document →
    final.disk.entry? document = start.disk.entry? document

/-- A pull refers to no new names, unless a document changed. -/
theorem Underway.referred {final : Workspace}
    (underway : Underway settings remote file start (referredNames start.disk start.foreign) final)
    (documents : SameDocuments start final)
    (member : name ∈ referredNames final.disk final.foreign) :
    name ∈ referredNames start.disk start.foreign := by
  obtain ⟨record, recorded, document, found, isOptimized, reads, among⟩ := mem_referredNames.1 member
  have optimized := underway.optimized record.id
  rw [Catalog.find?_of_mem underway.walkable.sorted recorded] at optimized
  obtain ⟨old, foundOld, isDocument⟩ :=
    Option.bind_eq_some_iff.1 (optimized.symm.trans isOptimized)
  have inStart := Catalog.mem_of_find? foundOld
  refine mem_referredNames.2 ⟨old, inStart, document, found, isDocument, ?_, among⟩
  refine (namesIn_congr fun content => ?_).1 reads
  rw [documents old inStart document isDocument]

/-- A pull that is through leaves nothing to do for any name, unless a document changed. -/
theorem Underway.idle {final : Workspace}
    (underway : Underway settings remote file start (referredNames start.disk start.foreign) final)
    (walkable : Walkable settings file start.disk.current start)
    (disjoint : Disjoint settings own file start.disk.current)
    (unnested : Unnested settings start.disk.current (soughtNames start))
    (documents : SameDocuments start final) :
    ∀ name ∈ referredNames final.disk final.foreign, Idle (keeping settings) final name := by
  intro name member
  have referred := underway.referred documents member
  cases ofProject : isLocal start.foreign name with
  | true =>
    have still := isLocal_congr (underway.untouched name (Or.inr (Or.inl ofProject)))
    rw [ofProject] at still
    exact ⟨Or.inl still, fun sought => absurd (still.symm.trans sought) (by simp)⟩
  | false =>
    obtain ⟨passes, pins⟩ := underway.pins name referred ofProject
    have placeable := placeable_of_checkPlace passes
    have same : isChosen settings start name = false → _ ∧ _ := fun notChosen =>
      underway.same_places walkable disjoint unnested
        (List.mem_filter.2 ⟨referred, by simp [ofProject]⟩) placeable fun other isChosen => by
          obtain ⟨referredOther, soughtOther, chosen⟩ := mem_chosenAmong.1 isChosen
          refine ⟨List.mem_filter.2 ⟨referredOther, by simp [soughtOther]⟩, ?_⟩
          rintro rfl
          exact absurd (chosen.symm.trans notChosen) (by simp)
    refine ⟨Or.inr ⟨passes, ?_⟩, fun _ => pins⟩
    cases left : isLeft settings start name with
    | true =>
      refine Or.inl ?_
      have notChosen : isChosen settings start name = false := by
        cases chosen : isChosen settings start name with
        | true => exact absurd (left.symm.trans (isLeft_of_chosen chosen)) (by simp)
        | false => rfl
      obtain ⟨sameSource, sameLog⟩ := same notChosen
      simp only [isLeft, Bool.and_eq_true, Bool.not_eq_true'] at left
      have missing := sameSource.trans left.1.2
      have logged := sameLog.trans left.2
      simp [pullChoice, keeping, missing, logged]
    | false =>
      have recorded := underway.recorded name referred ofProject left
      refine Or.inr ⟨?_, recorded⟩
      have there : final.disk.exists? (pulledPlace settings.target name) = true := by
        cases chosen : isChosen settings start name with
        | true =>
          obtain ⟨text, _, provided⟩ :=
            underway.provided name (mem_chosenAmong.2 ⟨referred, ofProject, chosen⟩)
          exact Disk.exists?_iff.2 ⟨_, provided.source⟩
        | false =>
          rw [(same chosen).1]
          revert chosen left
          unfold isChosen isLeft
          cases settings.overwrite <;>
            cases start.disk.exists? (pulledPlace settings.target name) <;>
            cases start.disk.exists? (logPlace settings.protocols name) <;> simp
      simp [pullChoice, keeping, there]

/-! ## The policy -/

/-- What a pull that counted some sources did between a workspace and another one. -/
structure Policy (settings : Settings) (remote : Remote) (start : Workspace) (count : Nat)
    (final : Workspace) : Prop where
  /-- The store is asked once for each chosen name and for no other one. -/
  asked : sourcesAsked final.journal = sourcesAsked start.journal ++ chosenNames settings start
  /-- Names are asked for in ascending order. -/
  ascending : (chosenNames settings start).Pairwise (· < ·)
  counted : count = (chosenNames settings start).length
  /-- The source of a chosen name is what the store answered, and its log names that file. -/
  provided : ∀ name ∈ chosenNames settings start, ∃ text,
    Answered settings remote start (referredNames start.disk start.foreign) name text ∧
    Provided settings final.disk name text start.instant
  /-- No other file below the pulled sources and the logs is made, changed, or lost. -/
  files : ∀ location, Guarded settings start.disk.current location →
    location ∉ goalsOf settings start.disk.current (chosenNames settings start) → ∀ content,
    final.disk.entryAt? location = some (.file content) ↔
      start.disk.entryAt? location = some (.file content)
  /-- A name with a log and no source keeps its record when nothing is overwritten. -/
  left : ∀ name ∈ soughtNames start, isLeft settings start name = true →
    final.foreign.find? name = start.foreign.find? name
  /-- Every other name is recorded as pulled from its place. -/
  recorded : ∀ name ∈ soughtNames start, isLeft settings start name = false →
    isRecorded final.foreign name (pulledPlace settings.target name) = true
  /-- A second pull fetches nothing, and changes nothing. -/
  again : SameDocuments start final →
    (pullAll (keeping settings) remote).Yields final 0 final

/-- A project where `a` refers to `b` and `c`, and there is a log of `c` only. -/
def loggedStart : Workspace :=
  { sampleStart with
    disk := ⟨[(["w"], .directory), (["w", "d.xmir"], .file (.text
        "<program><objects><o base=\x22b\x22/><o base=\x22c\x22/></objects></program>")),
      (["w", "p"], .directory), (["w", "p", "c.log"], .file (.text ""))], ["w"], []⟩
    foreign := ⟨catalogPath sampleSettings.target,
      [{ Record.ofId "a" with optimized := some (.ofText "d.xmir") }]⟩ }

/-- What pulling comes to in the project. -/
def loggedRun : Except Failure Nat × Workspace :=
  (pullAll sampleSettings sampleRemote).perform loggedStart

end EoAssembly.Build
