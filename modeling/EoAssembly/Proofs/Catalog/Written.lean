import EoAssembly.Proofs.Catalog.Editing
import EoAssembly.Proofs.Disk.Granted

/-!
Contract: the disk of a catalog file that was written, perhaps many times.

Writing the file creates its directory first.  From then on only the file itself changes: the
sibling comes and goes, and all other entries stay, whatever records are written and however
often.  A document that is read behind such a write is neither the catalog file, whose text is no
document, nor the sibling, which is gone; so it could be read before, as soon as the directory was
there, and can be read behind any other write.

Owns `Catalog.ground`, the disk with that directory, `Catalog.Prepared`, which says that the file
can be written, and `Catalog.Written`, which says what is there when it was.
-/

namespace EoAssembly

/-! ## A list of records is no document -/

/-- A text that begins with a bracket has no root element. -/
theorem Xml.readRoot_bracket {text : String} {rest : List Char} (begins : text.toList = '[' :: rest) :
    Xml.readRoot text = none := by
  have plain : Xml.behindDeclaration? (Xml.dropByteOrderMark text.toList) = some ('[' :: rest) := by
    rw [begins]
    rfl
  have nothing : Xml.events text = none := by
    unfold Xml.events
    rw [plain]
    rfl
  unfold Xml.readRoot
  rw [nothing]
  rfl

theorem Record.renderAll_bracket (records : List Record) :
    ∃ rest, (Record.renderAll records).toList = '[' :: rest := by
  unfold Record.renderAll Json.Value.render
  rw [String.toList_ofList]
  cases records with
  | nil => exact ⟨_, rfl⟩
  | cons first others => exact ⟨_, rfl⟩

/-- The text of a catalog file is no document. -/
theorem Document.ofText_renderAll (records : List Record) (label : String) :
    Document.ofText (Record.renderAll records) label = .error (Document.unreadable label) := by
  obtain ⟨rest, begins⟩ := Record.renderAll_bracket records
  unfold Document.ofText
  rw [Xml.readRoot_bracket begins]

/-! ## Disks with the same directories -/

namespace Disk

/-- Two disks with the same current directory and the same directories. -/
structure SameDirectories (first second : Disk) : Prop where
  current : second.current = first.current
  directories : ∀ location, second.directoryAt location = first.directoryAt location

section Same

variable {first second third : Disk}

theorem SameDirectories.refl (disk : Disk) : disk.SameDirectories disk := ⟨rfl, fun _ => rfl⟩

theorem SameDirectories.trans (left : first.SameDirectories second)
    (right : second.SameDirectories third) : first.SameDirectories third where
  current := right.current.trans left.current
  directories location := (right.directories location).trans (left.directories location)

theorem sameDirectories_takeOutage (disk : Disk) : disk.SameDirectories disk.takeOutage.2 where
  current := takeOutage_current disk
  directories location :=
    directoryAt_congr (takeOutage_entryAt? disk location)

theorem SameDirectories.passable (same : first.SameDirectories second) (path : Path) :
    second.Passable path ↔ first.Passable path := by
  unfold Passable
  simp only [same.current, same.directories]

theorem SameDirectories.walk (same : first.SameDirectories second)
    (components : List Path.Component) (location : Location) :
    second.walk location components = first.walk location components := by
  induction components generalizing location with
  | nil => rfl
  | cons component rest inductionHypothesis =>
    cases component with
    | up => simp only [Disk.walk, same.directories, inductionHypothesis]
    | _ => exact inductionHypothesis _

/-- Where a file may be written depends on directories only. -/
theorem SameDirectories.writableAt (same : first.SameDirectories second) (path : Path) :
    second.writableAt path = first.writableAt path := by
  unfold Disk.writableAt resolve?
  simp only [same.walk, same.current, same.directories]

end Same

/-- Directories that are there need not be created. -/
theorem createAlong_there {disk : Disk} {components : List Path.Component} {location : Location}
    (there : ∀ reached ∈ Path.wayFrom location components, disk.directoryAt reached = true) :
    disk.createAlong location components = (.ok (), disk) := by
  induction components generalizing location with
  | nil => rfl
  | cons component rest inductionHypothesis =>
    cases component with
    | named name =>
      obtain ⟨here, later⟩ := List.forall_mem_cons.1 there
      simp only [createAlong, directoryAt_iff.1 here]
      exact inductionHypothesis later
    | _ => exact inductionHypothesis there

/-- A disk on which the parent of a file was created has it. -/
theorem createParent_there {disk ground : Disk} {path : Path} (sound : disk.Sound)
    (created : disk.createParent path = (.ok (), ground)) {later : Disk}
    (same : ground.SameDirectories later) : later.createParent path = (.ok (), later) := by
  rw [createParent_eq] at created ⊢
  have way := (createAlong_directories sound sound.current created).2.2
  apply createAlong_there
  rw [same.current, (touches_createAlong sound sound.current created).current]
  intro reached member
  rw [same.directories]
  exact way reached member

end Disk

namespace Catalog

open Disk (SameDirectories Touches)

variable {catalog other : Catalog} {disk next ground : Disk} {path : Path}

/-- A disk with the directory that the file at a path stands in. -/
def groundOf (path : Path) (disk : Disk) : Disk := (disk.createParent path).2

/-- A catalog file and its sibling can be written, and their directory is there. -/
structure Prepared (path : Path) (ground : Disk) : Prop where
  sound : ground.Sound
  created : ground.createParent path = (.ok (), ground)
  file : ground.writableAt path = .ok (path.goal ground.current)
  sibling : ground.writableAt (path.extended ".tmp") =
    .ok ((path.extended ".tmp").goal ground.current)
  apart : (path.extended ".tmp").goal ground.current ≠ path.goal ground.current

/-- A disk differs from its ground by the catalog file, which was written. -/
structure Written (path : Path) (ground disk : Disk) : Prop where
  sound : disk.Sound
  same : ground.SameDirectories disk
  file : ∃ records, disk.entryAt? (path.goal ground.current) =
    some (.file (.text (Record.renderAll records)))
  gone : disk.entryAt? ((path.extended ".tmp").goal ground.current) = none
  elsewhere : ∀ location, location ≠ path.goal ground.current →
    location ≠ (path.extended ".tmp").goal ground.current →
    disk.entryAt? location = ground.entryAt? location

theorem sameDirectories_of_touches {written gone : List Location} {before after : Disk}
    (touches : Touches written gone [] before after)
    (noDirectory : ∀ location, location ∈ written ∨ location ∈ gone →
      before.directoryAt location = false ∧ after.directoryAt location = false) :
    before.SameDirectories after where
  current := touches.current
  directories location := by
    by_cases changed : location ∈ written ∨ location ∈ gone
    · obtain ⟨first, second⟩ := noDirectory location changed
      rw [first, second]
    · rw [not_or] at changed
      exact Disk.directoryAt_congr (touches.untouched changed.1 changed.2 (by simp))

/-! ## Writing once -/

/-- A catalog file that was written can be written on its ground, and differs from it only. -/
theorem persist_ground (sound : disk.Sound) (isText : catalog.path.IsText)
    (ran : catalog.persist disk = (.ok (), next)) :
    Prepared catalog.path (groundOf catalog.path disk) ∧
      Written catalog.path (groundOf catalog.path disk) next := by
  have apart := sibling_apart isText (persist_endsInName ran) disk.current
  have stands := persist_stands sound apart ran
  cases persist_iff.1 ran with
  | @replaced prepared written _ created wrote moved =>
    have isGround : groundOf catalog.path disk = prepared := by
      unfold groundOf
      rw [created]
    rw [isGround]
    have first := Disk.touches_createParent sound created
    obtain ⟨_, touches, standsSibling⟩ := Disk.writeText_ok first.sound wrote
    obtain ⟨_, moves, _⟩ := Disk.replace_ok touches.sound moved
    obtain ⟨_, writableSibling, _⟩ := Disk.writeText_eq_ok wrote
    obtain ⟨_, _, _, _, _, writableFile, _⟩ := Disk.replace_eq_ok moved
    rw [(Disk.sameDirectories_takeOutage prepared).writableAt] at writableSibling
    rw [(Disk.sameDirectories_takeOutage written).writableAt] at writableFile
    obtain ⟨_, _, atSibling, _, openSibling⟩ := Disk.writableAt_ok writableSibling
    obtain ⟨_, _, atFile, _, openFile⟩ := Disk.writableAt_ok writableFile
    rw [atSibling] at openSibling writableSibling
    rw [touches.current] at atFile moves
    rw [atFile] at openFile writableFile
    rw [← first.current] at stands apart
    have sameWritten : prepared.SameDirectories written := by
      apply sameDirectories_of_touches touches
      intro location changed
      have here : location = catalog.sibling.goal prepared.current := by simpa using changed
      rw [here]
      exact ⟨openSibling, Disk.directoryAt_of_file standsSibling⟩
    have sameLast : written.SameDirectories next := by
      apply sameDirectories_of_touches moves
      intro location changed
      simp only [List.mem_singleton] at changed
      rcases changed with here | here
      · rw [here]
        exact ⟨openFile, Disk.directoryAt_of_file stands.1⟩
      · rw [here]
        exact ⟨Disk.directoryAt_of_file standsSibling, Disk.directoryAt_of_none stands.2⟩
    rw [sameWritten.writableAt] at writableFile
    refine ⟨⟨first.sound, Disk.createParent_there sound created (.refl prepared),
      writableFile, writableSibling, apart⟩, ⟨moves.sound, sameWritten.trans sameLast,
      ⟨_, stands.1⟩, stands.2, fun location notFile notSibling => ?_⟩⟩
    have untouched : written.entryAt? location = prepared.entryAt? location :=
      touches.untouched (by simpa [sibling] using notSibling) (by simp) (by simp)
    rw [← untouched]
    exact moves.untouched (by simpa using notFile) (by simpa [sibling] using notSibling) (by simp)

/-! ## Writing many times -/

theorem Prepared.same (prepared : Prepared path ground) (sound : disk.Sound)
    (same : ground.SameDirectories disk) : Prepared path disk := by
  refine ⟨sound, Disk.createParent_there prepared.sound prepared.created same, ?_, ?_, ?_⟩
  · rw [same.writableAt, same.current]
    exact prepared.file
  · rw [same.writableAt, same.current]
    exact prepared.sibling
  · rw [same.current]
    exact prepared.apart

theorem Prepared.groundOf (prepared : Prepared path ground) : groundOf path ground = ground := by
  unfold Catalog.groundOf
  rw [prepared.created]

theorem Written.trans {between : Disk} (first : Written path ground between)
    (second : Written path between disk) : Written path ground disk := by
  obtain ⟨sound, same, file, gone, elsewhere⟩ := second
  rw [first.same.current] at file gone elsewhere
  refine ⟨sound, first.same.trans same, file, gone, fun location notFile notSibling => ?_⟩
  exact (elsewhere location notFile notSibling).trans (first.elsewhere location notFile notSibling)

/-- A disk is reached by writing a catalog file any number of times. -/
def Settles (path : Path) (start disk : Disk) : Prop :=
  disk = start ∨ Prepared path (groundOf path start) ∧ Written path (groundOf path start) disk

theorem Settles.refl (path : Path) (disk : Disk) : Settles path disk disk := Or.inl rfl

theorem Settles.trans {start between : Disk} (first : Settles path start between)
    (second : Settles path between disk) : Settles path start disk := by
  rcases first with same | ⟨prepared, written⟩
  · rw [← same]
    exact second
  · rcases second with same | ⟨_, writtenAgain⟩
    · rw [same]
      exact Or.inr ⟨prepared, written⟩
    · rw [(prepared.same written.sound written.same).groundOf] at writtenAgain
      exact Or.inr ⟨prepared, written.trans writtenAgain⟩

theorem Settles.sound {start : Disk} (settles : Settles path start disk) (sound : start.Sound) :
    disk.Sound := by
  rcases settles with same | ⟨_, written⟩
  · rw [same]
    exact sound
  · exact written.sound

theorem settles_persist (sound : disk.Sound) (isText : catalog.path.IsText)
    (ran : catalog.persist disk = (.ok (), next)) : Settles catalog.path disk next :=
  Or.inr (persist_ground sound isText ran)

/-- Where no outage is to come, a catalog file that can be written is written. -/
theorem Prepared.persist (prepared : Prepared catalog.path disk) (calm : disk.Calm) :
    ∃ next, catalog.persist disk = (.ok (), next) ∧ next.Calm := by
  have wrote : disk.writeText catalog.sibling catalog.render = _ :=
    Disk.writeText_receives calm prepared.sibling
  have noDirectory := (Disk.writableAt_ok prepared.sibling).2.2.2.2
  obtain ⟨passable, touches, stands⟩ := Disk.writeText_ok prepared.sound wrote
  have writable := Disk.writableAt_put (Disk.notRoot_of_writable noDirectory) prepared.file
    (show Entry.file (.text catalog.render) ≠ .directory by simp) noDirectory
  have isThere := Disk.entry_of_name (Disk.writableAt_ok prepared.sibling).1
    (touches.passable passable)
  unfold Catalog.sibling at touches stands
  rw [touches.current, stands] at isThere
  have stillWritten : (disk.put ((catalog.path.extended ".tmp").goal disk.current)
      (.file (.text catalog.render))).Calm := calm
  obtain ⟨next, moved, still⟩ := Disk.replace_receives stillWritten isThere writable
  exact ⟨next, persist_iff.2 (.replaced prepared.created wrote moved), still⟩

theorem createParent_of_persist (ran : catalog.persist disk = (.ok (), next)) :
    disk.createParent catalog.path = (.ok (), groundOf catalog.path disk) := by
  unfold groundOf
  cases persist_iff.1 ran with
  | replaced created => rw [created]

/-- Where one catalog could be written, any other one can be written in its place, and again. -/
theorem persist_settled {start last : Disk} (sound : start.Sound) (calm : start.Calm)
    (isText : catalog.path.IsText) (writes : catalog.persist start = (.ok (), last))
    (samePath : other.path = catalog.path) (settles : Settles catalog.path start disk)
    (still : disk.Calm) :
    ∃ next, other.persist disk = (.ok (), next) ∧ Settles catalog.path start next ∧ next.Calm := by
  obtain ⟨prepared, _⟩ := persist_ground sound isText writes
  have created := createParent_of_persist writes
  have soundHere := settles.sound sound
  rw [← samePath] at prepared created settles isText ⊢
  obtain ⟨next, ran, calmNext⟩ : ∃ next, other.persist disk = (.ok (), next) ∧ next.Calm := by
    rcases settles with same | ⟨_, written⟩
    · rw [same]
      obtain ⟨next, ran, calmNext⟩ := prepared.persist (Disk.calm_createParent calm created)
      cases persist_iff.1 ran with
      | replaced again wrote moved =>
        rw [prepared.created] at again
        rw [← (Prod.mk.inj again).2] at wrote
        exact ⟨next, persist_iff.2 (.replaced created wrote moved), calmNext⟩
    · exact (prepared.same written.sound written.same).persist still
  exact ⟨next, ran, settles.trans (settles_persist soundHere isText ran), calmNext⟩

/-! ## Documents beside the catalog file -/

/-- A path that leads neither to the catalog file nor to its sibling. -/
def Beside (path : Path) (ground : Disk) (document : Path) : Prop :=
  document.goal ground.current ≠ path.goal ground.current ∧
    document.goal ground.current ≠ (path.extended ".tmp").goal ground.current

theorem Written.entry? (written : Written path ground disk) {document : Path}
    (beside : Beside path ground document) : disk.entry? document = ground.entry? document :=
  Disk.entry_congr written.same.current (written.same.passable document)
    (written.elsewhere _ beside.1 beside.2)

/-- What is read as a document behind a write is beside the catalog file. -/
theorem Written.beside (written : Written path ground disk) {document : Path} {text : String}
    {found : Document} (stands : disk.entry? document = some (.file (.text text)))
    (reads : Document.ofText text document.text = .ok found) : Beside path ground document := by
  have here := (Disk.entry_eq_some stands).2.2
  rw [written.same.current] at here
  constructor
  · intro atFile
    obtain ⟨records, file⟩ := written.file
    rw [atFile, file] at here
    have same : Record.renderAll records = text := by simpa using here
    rw [← same, Document.ofText_renderAll] at reads
    exact absurd reads (by simp)
  · intro atSibling
    rw [atSibling, written.gone] at here
    exact absurd here (by simp)

theorem touches_groundOf (path : Path) (sound : disk.Sound) :
    ∃ made, Touches [] [] made disk (groundOf path disk) := by
  exact ⟨_, Disk.touches_createParent sound (show _ = (_, groundOf path disk) from rfl)⟩

theorem current_groundOf (path : Path) (sound : disk.Sound) :
    (groundOf path disk).current = disk.current := by
  obtain ⟨_, touches⟩ := touches_groundOf path sound
  exact touches.current

/-- A file that is read is read once more directories are there. -/
theorem entry?_groundOf (sound : disk.Sound) {document : Path} {content : FileContent}
    (stands : disk.entry? document = some (.file content)) :
    Disk.entry? (groundOf path disk) document = some (.file content) := by
  obtain ⟨_, passable, here⟩ := Disk.entry_eq_some stands
  obtain ⟨_, touches⟩ := touches_groundOf path sound
  have still := touches.stays (by simp) (by simp) here
  rw [← stands]
  apply Disk.entry_congr touches.current
  · exact iff_of_true (touches.passable passable) passable
  · rw [still, here]

end Catalog

end EoAssembly
