import EoAssembly.Proofs.Build.References
import EoAssembly.Proofs.Build.Registering
import EoAssembly.Proofs.Build.Resting
import EoAssembly.Proofs.Build.Keeping
import EoAssembly.Proofs.Disk.Raised

/-!
Contract: the files that builds make of the objects of a project, and what they hold.

An object has a document, one result for each pass, an optimized document, and when no
file of the project registers it a pulled source with a log.  What its document holds
follows from a text of its source, and what the passes make of it from the document.  A
store may answer more than one text for a name when builds are far apart.

Owns `Piece`, `documentText`, `madeText`, `Site`, and the pieces that may come up on one.

Does not own: what builds do with them.
-/

namespace EoAssembly.Build

open ObjectName (Placeable checkPlace)
open Path (IsName)

/-! ## Pieces -/

/-- A file that a build makes of an object. -/
inductive Piece where
  /-- The document. -/
  | parsed
  /-- The result of the pass at a position. -/
  | step (index : Nat)
  /-- The optimized document. -/
  | optimized
  /-- The pulled source. -/
  | pulled
  /-- The provenance log of the pulled source. -/
  | log
  deriving DecidableEq

namespace Piece

/-- The file name of the result of the pass at a position. -/
def stepName (index : Nat) : String :=
  ((Pass.all[index]?).map (Pass.stepFile index)).getD ""

/-- Where a piece of an object is. -/
def place (settings : Settings) (id : String) : Piece → Path
  | .parsed => parsedPlace settings.target id
  | .step index => (stepsPlace settings.target id).child (stepName index)
  | .optimized => optimizedPlace settings.target id
  | .pulled => pulledPlace settings.target id
  | .log => logPlace settings.protocols id

/-- The passes that make a piece of a document, for the pieces that passes make. -/
def passes? : Piece → Option (List Pass)
  | .step index => some (Pass.all.take (index + 1))
  | .optimized => some Pass.all
  | .parsed => none
  | .pulled => none
  | .log => none

/-- Whether a piece is one of objects that come from the store only. -/
def isStored : Piece → Bool
  | .pulled => true
  | .log => true
  | .parsed => false
  | .step _ => false
  | .optimized => false

end Piece

/-- The text of the document that a parser makes of a source of an object. -/
def documentText (settings : Settings) (parse : String → String → Except Failure String)
    (id source : String) : Except Failure String := do
  let made ← parse id source
  let document ← Document.ofText made (parsedPlace settings.target id).text
  document.render

/-- The text of what passes make of the document of an object. -/
def madeText (settings : Settings) (passes : List Pass) (id text : String) :
    Except Failure String := do
  let document ← Document.ofText text (parsedPlace settings.target id).text
  let result ← Pass.runAll passes document
  result.render

section Texts

variable {settings : Settings} {parse : String → String → Except Failure String}
  {id source text : String} {passes : List Pass}

theorem documentText_eq_ok : documentText settings parse id source = .ok text ↔
    ∃ made document, parse id source = .ok made ∧
      Document.ofText made (parsedPlace settings.target id).text = .ok document ∧
        document.render = .ok text := by
  unfold documentText
  cases parse id source with
  | error failure => simp [bind, Except.bind]
  | ok made =>
    cases read : Document.ofText made (parsedPlace settings.target id).text <;>
      simp [bind, Except.bind, read]

theorem madeText_eq_ok {made : String} : madeText settings passes id text = .ok made ↔
    ∃ document result, Document.ofText text (parsedPlace settings.target id).text = .ok document ∧
      Pass.runAll passes document = .ok result ∧ result.render = .ok made := by
  unfold madeText
  cases Document.ofText text (parsedPlace settings.target id).text with
  | error failure => simp [bind, Except.bind]
  | ok document =>
    cases ran : Pass.runAll passes document <;> simp [bind, Except.bind, ran]

/-- Passes one after the other are those before, and then those behind. -/
theorem runAll_append (first second : List Pass) (document : Document) :
    Pass.runAll (first ++ second) document =
      match Pass.runAll first document with
      | .ok between => Pass.runAll second between
      | .error failure => .error failure := by
  induction first generalizing document with
  | nil => rfl
  | cons pass rest inductionHypothesis =>
    rw [List.cons_append, Pass.runAll, Pass.runAll]
    cases pass.apply document with
    | error failure => rfl
    | ok next => exact inductionHypothesis next

/-- One pass more is made of what the passes before it made. -/
theorem runAll_concat {passes : List Pass} {pass : Pass} {document between : Document}
    (ran : Pass.runAll passes document = .ok between) :
    Pass.runAll (passes ++ [pass]) document = pass.apply between := by
  rw [runAll_append, ran]
  simp only [Pass.runAll]
  cases pass.apply between <;> rfl

end Texts

/-- The hash that a name is pinned to by a table of tags. -/
def pinnedHash (tags : Except Failure String) (name : String) : Option String :=
  match (ObjectName.split name).2 with
  | none => none
  | some version =>
    match tags with
    | .error _ => none
    | .ok text =>
      match HashTable.ofText text with
      | .error _ => none
      | .ok table => (table.get version).toOption

/-! ## Sites -/

/-- Where builds of a project follow each other.  On keeping grounds every pulled source is
an answer of the store; on exact grounds builds keep the sources that are there and start
from an empty target; on flawless grounds nothing fails. -/
structure Site where
  settings : Settings
  /-- The disk before the first build. -/
  start : Disk
  /-- The files that are registered, and what they hold. -/
  files : List Path
  content : Path → FileContent
  parse : String → String → Except Failure String
  /-- What the store may answer for a name. -/
  answers : String → String → Prop
  /-- The objects that may come up. -/
  involved : String → Prop
  /-- The text of the table of tags. -/
  tags : Except Failure String
  keeps : Prop
  exact : Prop
  flawless : Prop

namespace Site

variable {site : Site} {disk next : Disk} {piece other : Piece} {id twin : String}
  {content : FileContent}

def current (site : Site) : Location := site.start.current

/-- Whether a file of the project registers an object. -/
def Registers (site : Site) (id : String) : Prop := id ∈ site.files.map idOf

/-- The source of a registered object, in the project. -/
def sourcePath (site : Site) (file : Path) : Path := site.settings.sources.join file

def place (site : Site) (piece : Piece) (id : String) : Path := piece.place site.settings id

/-- Where a piece of an object leads. -/
def spot (site : Site) (piece : Piece) (id : String) : Location :=
  (site.place piece id).goal site.current

/-- Where the file of a name in the target leads. -/
def catalogSpot (site : Site) (file : String) : Location :=
  site.settings.target.goal site.current ++ [file]

/-- A text that the source of an object may hold when its document is made. -/
def SourceText (site : Site) (id text : String) : Prop :=
  match lastNamed site.files id with
  | some file => site.content file = .text text
  | none => site.answers id text

/-- A piece of an object that may come up. -/
structure Live (site : Site) (piece : Piece) (id : String) : Prop where
  involved : site.involved id
  placed : ¬site.Registers id → checkPlace id = .ok ()
  stored : piece.isStored = true → ¬site.Registers id
  position : ∀ index, piece = .step index → index < Pass.all.length

/-- The file of a piece holds a content. -/
def Holds (site : Site) (disk : Disk) (piece : Piece) (id : String) (content : FileContent) : Prop :=
  disk.entryAt? (site.spot piece id) = some (.file content)

/-- The file of a piece is there. -/
def Stands (site : Site) (disk : Disk) (piece : Piece) (id : String) : Prop :=
  ∃ content, site.Holds disk piece id content

/-- What is pulled for an object, if anything, is an answer of the store. -/
def Answered (site : Site) (disk : Disk) (id : String) : Prop :=
  ∀ content, site.Holds disk .pulled id content → ∃ text, content = .text text ∧ site.answers id text

/-- A content is what passes make of the document of an object. -/
def MadeOf (site : Site) (disk : Disk) (passes : List Pass) (id : String) (content : FileContent) :
    Prop :=
  ∃ text made, site.Holds disk .parsed id (.text text) ∧
    madeText site.settings passes id text = .ok made ∧ content = .text made

/-- A content that the file of a piece may hold. -/
def Permits (site : Site) (disk : Disk) (id : String) (content : FileContent) : Piece → Prop
  | .parsed => ∃ source text, site.SourceText id source ∧
      documentText site.settings site.parse id source = .ok text ∧ content = .text text
  | .step index => site.MadeOf disk (Pass.all.take (index + 1)) id content
  | .optimized => site.MadeOf disk Pass.all id content ∧
      ∀ index, index < Pass.all.length → site.Stands disk (.step index) id
  | .pulled => site.keeps → ∃ text, content = .text text ∧ site.answers id text
  | .log => site.exact → site.Stands disk .pulled id

/-- A path that builds write. -/
inductive Writes (site : Site) : Path → Prop where
  | piece {piece : Piece} {id : String} (live : site.Live piece id) :
    Writes site (site.place piece id)
  | catalog {file : String} (known : file ∈ catalogFiles) :
    Writes site (site.settings.target.child file)

/-- On exact grounds the paths that builds write end in names, none is above another, and
nothing stood where they lead. -/
structure Exact (site : Site) : Prop where
  keeps : site.keeps
  ends : ∀ path, site.Writes path → path.EndsInName
  clear : ∀ path other, site.Writes path → site.Writes other →
    path.goal site.current ∉ other.above site.current
  free : ∀ path, site.Writes path → site.start.entryAt? (path.goal site.current) = none

/-- On flawless grounds every file can be written, the documents of all objects can be made
and read, and the store has all that is pulled. -/
structure Able (site : Site) : Prop where
  exact : site.exact
  receives : ∀ path, site.Writes path → site.start.Receives path
  documents : ∀ id source, site.involved id → site.SourceText id source →
    ∃ text, documentText site.settings site.parse id source = .ok text ∧
      (∀ index, index < Pass.all.length →
        ∃ made, madeText site.settings (Pass.all.take (index + 1)) id text = .ok made) ∧
      ∃ made names, madeText site.settings Pass.all id text = .ok made ∧
        namesOfText (site.place .optimized id) made = .ok names
  texts : ∀ id file, lastNamed site.files id = some file → ∃ text, site.content file = .text text
  placed : ∀ id, site.involved id → ¬site.Registers id → checkPlace id = .ok ()
  pins : ∀ id, site.involved id → ¬site.Registers id → Pins site.tags id

/-- What builds on a site rest on: the places of its pieces, its sources and the catalog files
are different, and what a document refers to may come up when the document may. -/
structure Firm (site : Site) : Prop where
  sources : site.settings.sources.IsText
  target : site.settings.target.IsText
  names : ∀ file ∈ site.files, file.segments ≠ [] ∧ ∀ name ∈ file.segments, IsName name
  roots : ∀ file ∈ site.files, site.involved (idOf file)
  closed : ∀ id source text made names, site.involved id → site.SourceText id source →
    documentText site.settings site.parse id source = .ok text →
    madeText site.settings Pass.all id text = .ok made →
    namesOfText (site.place .optimized id) made = .ok names → ∀ name ∈ names, site.involved name
  apart : ∀ piece id other twin, site.Live piece id → site.Live other twin →
    site.spot piece id = site.spot other twin → piece = other ∧ id = twin
  beside : ∀ piece id, site.Live piece id → ∀ file ∈ catalogFiles,
    site.spot piece id ≠ site.catalogSpot file
  aloof : ∀ file ∈ site.files,
    (∀ piece id, site.Live piece id → (site.sourcePath file).goal site.current ≠ site.spot piece id) ∧
      ∀ name ∈ catalogFiles, (site.sourcePath file).goal site.current ≠ site.catalogSpot name
  exact : site.exact → site.Exact
  able : site.flawless → site.Able

/-! ## Registered objects -/

theorem registers_iff : site.Registers id ↔ ∃ file, lastNamed site.files id = some file := by
  unfold Registers
  constructor
  · intro member
    obtain ⟨file, among, same⟩ := List.mem_map.1 member
    rw [← same]
    exact lastNamed_of_mem among
  · rintro ⟨file, last⟩
    obtain ⟨among, same⟩ := lastNamed_mem last
    exact List.mem_map.2 ⟨file, among, same⟩

theorem sourceText_stored (foreign : ¬site.Registers id) (text : String) :
    site.SourceText id text ↔ site.answers id text := by
  unfold SourceText
  cases last : lastNamed site.files id with
  | none => exact Iff.rfl
  | some file => exact absurd (registers_iff.2 ⟨file, last⟩) foreign

theorem sourceText_registered {file : Path} (last : lastNamed site.files id = some file)
    (text : String) : site.SourceText id text ↔ site.content file = .text text := by
  unfold SourceText
  rw [last]

/-! ## Live pieces -/

/-- All pieces of an object but those from the store may come up when one may. -/
theorem Live.beside (live : site.Live piece id) (own : other.isStored = false)
    (position : ∀ index, other = .step index → index < Pass.all.length) : site.Live other id where
  involved := live.involved
  placed := live.placed
  stored stored := absurd (own.symm.trans stored) (by simp)
  position := position

theorem Live.parsed (live : site.Live piece id) : site.Live .parsed id :=
  live.beside rfl fun _ wrong => absurd wrong (by simp)

theorem Live.optimized (live : site.Live piece id) : site.Live .optimized id :=
  live.beside rfl fun _ wrong => absurd wrong (by simp)

theorem Live.step (live : site.Live piece id) {index : Nat} (below : index < Pass.all.length) :
    site.Live (.step index) id :=
  live.beside rfl fun _ same => (Piece.step.inj same) ▸ below

/-- The pieces from the store of an object that no file registers. -/
theorem live_stored (involved : site.involved id) (foreign : ¬site.Registers id)
    (checks : checkPlace id = .ok ()) (piece : Piece) (stored : piece.isStored = true) :
    site.Live piece id where
  involved := involved
  placed _ := checks
  stored _ := foreign
  position index same := by
    rw [same] at stored
    exact absurd stored (by simp [Piece.isStored])

end Site

end EoAssembly.Build
