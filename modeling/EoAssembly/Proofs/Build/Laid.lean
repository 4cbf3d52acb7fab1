import EoAssembly.Proofs.Build.Listing
import EoAssembly.Proofs.Build.Pieces

/-!
Contract: what stands on the disk of a site, whatever happened before.

The sources stay as they were, and every piece of an object holds what it may.  A piece
is written when it may hold what is written; where the write fails no piece changes.  On
exact grounds everything on the disk was there at the start, or is a file that builds
write or a directory above one, so a file that could be written at the start still can, and
one that was written could be.

Owns `Site.Laid`, `Site.Neat`, and both after a piece or a catalog is written.
-/

namespace EoAssembly.Build

open Disk (Touches)

namespace Site

variable {site : Site} {disk next : Disk} {piece other : Piece} {id twin text : String}
  {content : FileContent} {written gone made : List Location} {path : Path}
  {outcome : Except Failure Unit}

/-- A disk whose sources are as they were, and whose pieces hold what they may. -/
structure Laid (site : Site) (disk : Disk) : Prop where
  sound : disk.Sound
  current : disk.current = site.current
  sources : ∀ file ∈ site.files,
    disk.entry? (site.sourcePath file) = some (.file (site.content file))
  reached : ∀ piece id, site.Live piece id → piece ≠ .log → site.Stands disk piece id →
    (site.place piece id).EndsInName ∧ disk.Passable (site.place piece id)
  permits : ∀ piece id content, site.Live piece id → site.Holds disk piece id content →
    site.Permits disk id content piece

/-- Everything on a disk was there at the start, or builds put it there. -/
structure Neat (site : Site) (disk : Disk) : Prop where
  stays : ∀ location entry, site.start.entryAt? location = some entry →
    disk.entryAt? location = some entry
  files : ∀ location content, disk.entryAt? location = some (.file content) →
    site.start.entryAt? location = some (.file content) ∨
      ∃ path, site.Writes path ∧ location = path.goal site.current ∧ disk.Carries path
  directories : ∀ location, disk.directoryAt location = true →
    site.start.directoryAt location = true ∨
      (∃ path, site.Writes path ∧ location ∈ path.above site.current) ∧
        ∀ name ∈ location.getLast?, Disk.nameAllowed name = true
  tidy : disk.Tidy
  passes : ∀ path, site.start.Passable path → disk.Passable path

/-! ## Pieces that are not touched -/

theorem Holds.stands (holds : site.Holds disk piece id content) : site.Stands disk piece id :=
  ⟨content, holds⟩

theorem Holds.unique {text : FileContent} (holds : site.Holds disk piece id content)
    (here : site.Holds disk piece id text) : content = text :=
  Entry.file.inj (Option.some.inj (holds.symm.trans here))

theorem holds_touch (touches : Touches written gone made disk next)
    (unwritten : site.spot piece id ∉ written) (kept : site.spot piece id ∉ gone) :
    site.Holds next piece id content ↔ site.Holds disk piece id content :=
  ⟨touches.file_before unwritten kept, touches.stays unwritten kept⟩

/-- What a piece may hold depends on the document, the results of passes and the pulled source
of its object. -/
theorem Permits.mono (permits : site.Permits disk id content piece)
    (parsed : ∀ text, site.Holds disk .parsed id (.text text) →
      site.Holds next .parsed id (.text text) ∨ piece.passes? = none)
    (steps : ∀ index, index < Pass.all.length → site.Stands disk (.step index) id →
      site.Stands next (.step index) id)
    (pulled : piece = .log → site.Stands disk .pulled id → site.Stands next .pulled id) :
    site.Permits next id content piece := by
  have made : ∀ passes, piece.passes? = some passes → site.MadeOf disk passes id content →
      site.MadeOf next passes id content := by
    rintro passes isMade ⟨text, result, holds, same, isContent⟩
    rcases parsed text holds with here | none
    · exact ⟨text, result, here, same, isContent⟩
    · exact absurd (isMade.symm.trans none) (by simp)
  cases piece with
  | parsed => exact permits
  | step index => exact made _ rfl permits
  | optimized => exact ⟨made _ rfl permits.1, fun index below => steps index below (permits.2 index below)⟩
  | pulled => exact permits
  | log => exact fun exact_ => pulled rfl (permits exact_)

/-- A change of the disk that touches no source and no piece keeps it laid. -/
theorem Laid.touch (laid : site.Laid disk) (touches : Touches written gone made disk next)
    (pieces : ∀ piece id, site.Live piece id →
      site.spot piece id ∉ written ∧ site.spot piece id ∉ gone)
    (sources : ∀ file ∈ site.files, (site.sourcePath file).goal site.current ∉ written ∧
      (site.sourcePath file).goal site.current ∉ gone) : site.Laid next := by
  have same : ∀ piece id content, site.Live piece id →
      (site.Holds next piece id content ↔ site.Holds disk piece id content) :=
    fun piece id _ live => holds_touch touches (pieces piece id live).1 (pieces piece id live).2
  have stands : ∀ piece id, site.Live piece id → site.Stands disk piece id →
      site.Stands next piece id := by
    rintro piece id live ⟨content, holds⟩
    exact ⟨content, (same piece id content live).2 holds⟩
  refine ⟨touches.sound, touches.current.trans laid.current, fun file member => ?_,
    fun piece id live noLog here => ?_, fun piece id content live holds => ?_⟩
  · have free := sources file member
    rw [← laid.current] at free
    exact touches.entry?_stays free.1 free.2 (laid.sources file member)
  · obtain ⟨content, holds⟩ := here
    obtain ⟨ends, passable⟩ := laid.reached piece id live noLog ⟨content, (same _ _ _ live).1 holds⟩
    exact ⟨ends, touches.passable passable⟩
  · have permits := laid.permits piece id content live ((same _ _ _ live).1 holds)
    refine permits.mono (fun text holds => Or.inl ((same _ _ _ live.parsed).2 holds))
      (fun index below => stands _ _ (live.step below)) fun isLog => ?_
    have stored : piece.isStored = true := by rw [isLog]; rfl
    have pulled : site.Live .pulled id :=
      ⟨live.involved, live.placed, fun _ => live.stored stored, fun _ wrong => absurd wrong (by simp)⟩
    exact stands _ _ pulled

/-! ## Writing a piece -/

/-- What became of a piece that was to be written, and of everything else. -/
structure Wrote (site : Site) (piece : Piece) (id text : String) (outcome : Except Failure Unit)
    (disk next : Disk) : Prop where
  sound : next.Sound
  current : next.current = disk.current
  passable : ∀ path, disk.Passable path → next.Passable path
  others : ∀ other twin content, site.Live other twin → ¬(other = piece ∧ twin = id) →
    (site.Holds next other twin content ↔ site.Holds disk other twin content)
  sources : ∀ file ∈ site.files, ∀ entry, disk.entry? (site.sourcePath file) = some entry →
    next.entry? (site.sourcePath file) = some entry
  catalogs : ∀ file ∈ catalogFiles, ∀ content,
    next.entryAt? (site.catalogSpot file) = some (.file content) ↔
      disk.entryAt? (site.catalogSpot file) = some (.file content)
  written : outcome = .ok () → (site.place piece id).EndsInName ∧
    next.Passable (site.place piece id) ∧ site.Holds next piece id (.text text)
  failed : ∀ failure, outcome = .error failure → ∀ content,
    site.Holds next piece id content ↔ site.Holds disk piece id content

theorem wrote (firm : site.Firm) (sound : disk.Sound) (current : disk.current = site.current)
    (live : site.Live piece id)
    (ran : Document.writeBelow disk (site.place piece id) text = (outcome, next)) :
    site.Wrote piece id text outcome disk next := by
  obtain ⟨made, touches, _, _, failed⟩ := Document.writeBelow_any sound ran
  have goal : (site.place piece id).goal disk.current = site.spot piece id := by rw [current]; rfl
  rw [goal] at touches
  refine ⟨touches.sound, touches.current, fun _ => touches.passable,
    fun other twin content liveOther different => ?_, fun file member entry stands => ?_,
    fun file member content => ?_, fun fine => ?_, fun failure isError content => ?_⟩
  · refine holds_touch touches ?_ (by simp)
    rw [List.mem_singleton]
    exact fun same => different (firm.apart other twin piece id liveOther live same)
  · have free := (firm.aloof file member).1 piece id live
    rw [← current] at free
    exact touches.entry?_stays (by simpa using free) (by simp) stands
  · have free : site.catalogSpot file ∉ [site.spot piece id] := by
      rw [List.mem_singleton]
      exact fun same => firm.beside piece id live file member same.symm
    exact ⟨touches.file_before free (by simp), touches.stays free (by simp)⟩
  · rw [fine] at ran
    obtain ⟨ends, passable, _, stands⟩ := Document.writeBelow_ok sound ran
    rw [goal] at stands
    exact ⟨ends, passable, stands⟩
  · exact holds_touch (failed failure isError) (by simp) (by simp)

namespace Wrote

variable (wrote : site.Wrote piece id text outcome disk next)

include wrote

/-- What a piece holds that was to be written. -/
theorem holds (here : site.Holds next piece id content) :
    (outcome = .ok () ∧ content = .text text) ∨ site.Holds disk piece id content := by
  cases isOutcome : outcome with
  | ok value => exact Or.inl ⟨rfl, here.unique (wrote.written isOutcome).2.2⟩
  | error failure => exact Or.inr ((wrote.failed failure isOutcome content).1 here)

/-- No file is lost. -/
theorem stands (live : site.Live other twin) (here : site.Stands disk other twin) :
    site.Stands next other twin := by
  obtain ⟨content, holds⟩ := here
  by_cases same : other = piece ∧ twin = id
  · obtain ⟨rfl, rfl⟩ := same
    cases isOutcome : outcome with
    | ok value => exact ⟨_, (wrote.written isOutcome).2.2⟩
    | error failure => exact ⟨content, (wrote.failed failure isOutcome content).2 holds⟩
  · exact ⟨content, (wrote.others other twin content live same).2 holds⟩

theorem laid (live : site.Live piece id) (laid : site.Laid disk)
    (permits : site.Permits disk id (.text text) piece)
    (unmade : piece = .parsed → ∀ other, other.passes? ≠ none → site.Live other id →
      ¬site.Stands disk other id) : site.Laid next where
  sound := wrote.sound
  current := wrote.current.trans laid.current
  sources file member := wrote.sources file member _ (laid.sources file member)
  reached other twin liveOther noLog here := by
    have before : ∀ content, site.Holds disk other twin content →
        (site.place other twin).EndsInName ∧ next.Passable (site.place other twin) := by
      intro content holds
      obtain ⟨ends, passable⟩ := laid.reached other twin liveOther noLog ⟨content, holds⟩
      exact ⟨ends, wrote.passable _ passable⟩
    obtain ⟨content, holds⟩ := here
    by_cases same : other = piece ∧ twin = id
    · obtain ⟨rfl, rfl⟩ := same
      rcases wrote.holds holds with ⟨fine, _⟩ | still
      · exact ⟨(wrote.written fine).1, (wrote.written fine).2.1⟩
      · exact before content still
    · exact before content ((wrote.others other twin content liveOther same).1 holds)
  permits other twin content liveOther holds := by
    have before : site.Permits disk twin content other ∧
        (other.passes? ≠ none → ¬(piece = .parsed ∧ twin = id)) := by
      by_cases same : other = piece ∧ twin = id
      · obtain ⟨rfl, rfl⟩ := same
        refine ⟨?_, ?_⟩
        · rcases wrote.holds holds with ⟨_, same⟩ | still
          · rw [same]
            exact permits
          · exact laid.permits other twin content live still
        · rintro isMade ⟨rfl, _⟩
          exact isMade rfl
      · have still := (wrote.others other twin content liveOther same).1 holds
        refine ⟨laid.permits other twin content liveOther still, ?_⟩
        rintro isMade ⟨isParsed, rfl⟩
        exact unmade isParsed other isMade liveOther ⟨content, still⟩
    refine before.1.mono (fun text holds => ?_)
      (fun index below => wrote.stands (liveOther.step below)) fun isLog => ?_
    · by_cases isMade : other.passes? = none
      · exact Or.inr isMade
      · refine Or.inl ((wrote.others _ _ _ liveOther.parsed ?_).2 holds)
        rintro ⟨isParsed, sameId⟩
        exact before.2 isMade ⟨isParsed.symm, sameId⟩
    · have stored : other.isStored = true := by rw [isLog]; rfl
      exact wrote.stands ⟨liveOther.involved, liveOther.placed, fun _ => liveOther.stored stored,
        fun _ wrong => absurd wrong (by simp)⟩

end Wrote

/-! ## What builds put on a disk -/

section Neat

variable (exact_ : site.Exact)

include exact_

/-- A disk stays neat when files that builds write are touched and directories above them made. -/
theorem Neat.touch (neat : site.Neat disk) (touches : Touches written gone made disk next)
    (ours : ∀ location, location ∈ written ∨ location ∈ gone →
      ∃ path, site.Writes path ∧ location = path.goal site.current ∧
        ∀ content, next.entryAt? location = some (.file content) →
          disk.entryAt? location = some (.file content) ∨ next.Carries path)
    {raised : List Location} (raises : disk.Raises raised next)
    (above : ∀ location ∈ raised, ∃ path, site.Writes path ∧ location ∈ path.above site.current)
    (tidy : next.Tidy) : site.Neat next where
  stays location entry stands := by
    have free : location ∉ written ∧ location ∉ gone := by
      rw [← not_or]
      intro touched
      obtain ⟨path, writes, same, _⟩ := ours location touched
      rw [same, exact_.free path writes] at stands
      exact absurd stands (by simp)
    exact touches.stays free.1 free.2 (neat.stays location entry stands)
  files location content stands := by
    have still : disk.entryAt? location = some (.file content) →
        site.start.entryAt? location = some (.file content) ∨
          ∃ path, site.Writes path ∧ location = path.goal site.current ∧ next.Carries path := by
      intro before
      refine (neat.files location content before).imp_right ?_
      rintro ⟨path, writes, same, carries⟩
      exact ⟨path, writes, same, carries.touch touches⟩
    by_cases touched : location ∈ written ∨ location ∈ gone
    · obtain ⟨path, writes, same, carried⟩ := ours location touched
      rcases carried content stands with before | carries
      · exact still before
      · exact Or.inr ⟨path, writes, same, carries⟩
    · rw [not_or] at touched
      exact still (touches.file_before touched.1 touched.2 stands)
  directories location stands := by
    rcases raises location stands with before | ⟨among, _, allowed⟩
    · exact neat.directories location before
    · exact Or.inr ⟨above location among, allowed⟩
  tidy := tidy
  passes path passable := touches.passable (neat.passes path passable)

/-- A file that builds write can be written while the disk is neat, when it could be at the
start. -/
theorem Neat.receives (neat : site.Neat disk) (current : disk.current = site.current)
    (writes : site.Writes path) (receives : site.start.Receives path) : disk.Receives path where
  ends := receives.ends
  above reached member := by
    rw [current] at member
    cases stands : disk.entryAt? reached with
    | none =>
      refine Or.inr ⟨stands, ?_⟩
      rcases receives.above reached member with directory | ⟨_, allowed⟩
      · have still := neat.stays reached _ (Disk.directoryAt_iff.1 directory)
        exact absurd (stands.symm.trans still) (by simp)
      · exact allowed
    | some entry =>
      cases entry with
      | directory => exact Or.inl (Disk.directoryAt_iff.2 stands)
      | file content =>
        rcases neat.files reached content stands with before | ⟨other, writesOther, same, _⟩
        · rcases receives.above reached member with directory | ⟨nothing, _⟩
          · rw [Disk.directoryAt_iff, before] at directory
            exact absurd directory (by simp)
          · exact absurd (nothing.symm.trans before) (by simp)
        · rw [same] at member
          exact absurd member (exact_.clear other path writesOther writes)
  apart := by
    rw [current]
    exact receives.apart
  goal := by
    rw [current, Bool.eq_false_iff]
    intro directory
    rcases neat.directories _ directory with before | ⟨⟨other, writesOther, above⟩, _⟩
    · exact absurd (before.symm.trans receives.goal) (by simp)
    · exact exact_.clear path other writes writesOther above
  allowed := by
    rw [current]
    exact receives.allowed

/-- No directory stands where builds write a file. -/
theorem Neat.noDirectory (neat : site.Neat disk) (writes : site.Writes path) :
    disk.directoryAt (path.goal site.current) = false := by
  rw [Bool.eq_false_iff]
  intro directory
  rcases neat.directories _ directory with before | ⟨⟨other, writesOther, above⟩, _⟩
  · rw [Disk.directoryAt_iff, exact_.free path writes] at before
    exact absurd before (by simp)
  · exact exact_.clear path other writes writesOther above

theorem Neat.write (neat : site.Neat disk) (sound : disk.Sound)
    (current : disk.current = site.current) (writes : site.Writes path)
    (ran : Document.writeBelow disk path text = (outcome, next)) : site.Neat next := by
  obtain ⟨made, touches, raises, isMade, _⟩ := Document.writeBelow_any sound ran
  rw [isMade (exact_.ends path writes), current] at raises
  rw [current] at touches
  refine neat.touch exact_ touches (fun location touched => ?_) raises
    (fun location above => ⟨path, writes, above⟩) (neat.tidy.writeBelow ran)
  rcases touched with here | none
  · have isGoal : location = path.goal site.current := List.mem_singleton.1 here
    refine ⟨path, writes, isGoal, fun content stands => ?_⟩
    rw [isGoal, ← current] at stands ⊢
    exact Document.writeBelow_carries sound ran stands
  · exact absurd none (by simp)

end Neat

/-! ## What could be written -/

theorem isName_catalogFiles : ∀ file ∈ catalogFiles, Path.IsName file := by decide

theorem goal_catalog {file : String} (known : file ∈ catalogFiles) :
    (site.settings.target.child file).goal site.current = site.catalogSpot file :=
  Path.goal_of_names site.current (Path.components_child _ (isName_catalogFiles file known))

/-- Builds write one path for each file. -/
theorem Firm.writes_inj (firm : site.Firm) {path other : Path} (writes : site.Writes path)
    (writesOther : site.Writes other) (same : path.goal site.current = other.goal site.current) :
    path = other := by
  cases writes with
  | @piece piece id live =>
    cases writesOther with
    | @piece twin name liveOther =>
      obtain ⟨rfl, rfl⟩ := firm.apart _ _ _ _ live liveOther same
      rfl
    | @catalog file known =>
      rw [goal_catalog known] at same
      exact absurd same (firm.beside _ _ live _ known)
  | @catalog file known =>
    rw [goal_catalog known] at same
    cases writesOther with
    | @piece twin name live => exact absurd same.symm (firm.beside _ _ live _ known)
    | @catalog twin knownOther =>
      rw [goal_catalog knownOther] at same
      rw [List.singleton_inj.1 (List.append_cancel_left same)]

/-- The directories above a file that builds wrote are there. -/
theorem Neat.carries (firm : site.Firm) (exact_ : site.Exact) (neat : site.Neat disk)
    (writes : site.Writes path)
    (stands : disk.entryAt? (path.goal site.current) = some (.file content)) :
    disk.Carries path := by
  rcases neat.files _ content stands with before | ⟨other, writesOther, same, carries⟩
  · rw [exact_.free path writes] at before
    exact absurd before (by simp)
  · rw [firm.writes_inj writes writesOther same]
    exact carries

/-- A file that builds wrote could be written at the start. -/
theorem Neat.received (firm : site.Firm) (exact_ : site.Exact) (neat : site.Neat disk)
    (current : disk.current = site.current) (writes : site.Writes path)
    (stands : disk.entryAt? (path.goal site.current) = some (.file content)) :
    site.start.Receives path := by
  have carries := neat.carries firm exact_ writes stands
  obtain ⟨above, allowed⟩ := carries
  rw [current] at above allowed
  refine ⟨exact_.ends path writes, fun reached member => ?_, exact_.clear path path writes writes, ?_,
    allowed⟩
  · have here := above reached member
    rcases neat.directories reached here with before | ⟨_, names⟩
    · exact Or.inl before
    · cases atStart : site.start.entryAt? reached with
      | none => exact Or.inr ⟨atStart, names⟩
      | some entry =>
        have still := neat.stays reached entry atStart
        rw [Disk.directoryAt_iff.1 here] at still
        rw [← Option.some.inj still] at atStart
        exact Or.inl (Disk.directoryAt_iff.2 atStart)
  · rw [Bool.eq_false_iff]
    intro directory
    rw [Disk.directoryAt_iff] at directory
    exact absurd ((exact_.free path writes).symm.trans directory) (by simp)

end Site

end EoAssembly.Build
