import EoAssembly.Proofs.Build.Ground
import EoAssembly.Proofs.Build.Registering

/-!
Contract: what a build may rely on, wherever an earlier one stopped.

Every record of a catalog is borne out by the disk: the files that it names are there,
its stages are in order, and what a discovered document refers to has a record.  This
holds of the records in memory and of those in the catalog file, and a change of the
disk that lets go of the siblings of catalog files at most keeps it.

Owns `Grounds`, `Onward`, `Borne` and `Steady`.

Does not own: how steps keep a workspace steady.
-/

namespace EoAssembly.Build

open Disk (Touches)
open ObjectName (Placeable Storable checkPlace)
open Path (IsName)

/-- Where builds of a project work.  A store has locations of its own; on strict grounds
file names are strict, and on saving grounds the directories are apart and every catalog
that is written stays as written. -/
structure Grounds where
  sources : Path
  target : Path
  protocols : Path
  current : Location
  own : Location → Prop
  strict : Prop
  saving : Prop

namespace Grounds

/-- Settings with the directories of the grounds. -/
def settings (grounds : Grounds) : Settings :=
  { sources := grounds.sources, target := grounds.target, protocols := grounds.protocols }

/-- The catalog of exported objects. -/
def externalPath (grounds : Grounds) : Path := grounds.target.child Catalogs.externalFile

/-- Where the siblings of catalog files come and go. -/
def siblings (grounds : Grounds) : List Location :=
  [Catalogs.foreignFile ++ ".tmp", Catalogs.externalFile ++ ".tmp"].map fun file =>
    grounds.target.goal grounds.current ++ [file]

/-- The directories are written as texts, those of the target and of the protocols are apart,
and the store keeps clear of what a build reads. -/
structure Firm (grounds : Grounds) : Prop where
  sources : grounds.sources.IsText
  target : grounds.target.IsText
  protocols : grounds.protocols.IsText
  apart : ¬grounds.target.goal grounds.current <+: grounds.protocols.goal grounds.current
  back : ¬grounds.protocols.goal grounds.current <+: grounds.target.goal grounds.current
  ownTarget : ∀ location, grounds.own location →
    ¬grounds.target.goal grounds.current <+: location ∧
      location ∉ grounds.target.left grounds.current
  ownSources : ∀ location, grounds.own location →
    ¬grounds.sources.goal grounds.current <+: location ∧
      location ∉ grounds.sources.left grounds.current
  separate : grounds.saving → Separate grounds.settings grounds.current

/-- A path that leads neither to a sibling of a catalog file nor to the store. -/
structure Safe (grounds : Grounds) (path : Path) : Prop where
  sibling : path.goal grounds.current ∉ grounds.siblings
  goal : ¬grounds.own (path.goal grounds.current)
  left : ∀ passed ∈ path.left grounds.current, ¬grounds.own passed

/-- A path that leads to something, and will. -/
def Lasting (grounds : Grounds) (disk : Disk) (path : Path) : Prop :=
  grounds.Safe path ∧ disk.exists? path = true

/-- A path behind names in the sources. -/
def Local (grounds : Grounds) (path : Path) : Prop :=
  ∃ names, names ≠ [] ∧ (∀ name ∈ names, IsName name) ∧ path = grounds.sources.join ⟨names⟩

variable {grounds : Grounds} {path : Path} {id : String}

theorem Local.isText (firm : grounds.Firm) (isLocal : grounds.Local path) : path.IsText := by
  obtain ⟨names, some_, plain, same⟩ := isLocal
  rw [same]
  exact firm.sources.join (Path.isText_iff.2 ⟨some_, fun segment member => (plain segment member).noSlash⟩)

/-- A path inside the target is safe. -/
theorem safe_inside (firm : grounds.Firm) (inside : path.Inside grounds.current grounds.target) :
    grounds.Safe path where
  sibling member := by
    obtain ⟨file, among, same⟩ := List.mem_map.1 member
    have siblings : ∀ other ∈ [Catalogs.foreignFile ++ ".tmp", Catalogs.externalFile ++ ".tmp"],
        other ∈ catalogFiles := by decide
    exact inside.not_catalog (siblings file among) same.symm
  goal owned := (firm.ownTarget _ owned).1 inside.below
  left passed member owned := by
    rcases inside.left passed member with before | behind
    · exact (firm.ownTarget passed owned).2 before
    · exact (firm.ownTarget passed owned).1 behind

theorem safe_local (firm : grounds.Firm) (isLocal : grounds.Local path)
    (sibling : path.goal grounds.current ∉ grounds.siblings) : grounds.Safe path := by
  obtain ⟨names, some_, plain, same⟩ := isLocal
  have components := Path.components_join_names grounds.sources some_
    fun name member => (plain name member).names
  rw [← same] at components
  refine ⟨sibling, fun owned => ?_, fun passed member owned => ?_⟩
  · refine (firm.ownSources _ owned).1 ?_
    rw [Path.goal_of_names _ components]
    exact List.prefix_append _ _
  · rw [Path.left_of_names _ components] at member
    exact (firm.ownSources passed owned).2 member

/-! ## Changes of the disk -/

/-- What lasts is there after a change of the disk, an optimized document holds what it held,
and on saving grounds the sources are as they were. -/
structure Onward (grounds : Grounds) (before after : Disk) : Prop where
  stands : ∀ path, grounds.Safe path → before.exists? path = true → after.exists? path = true
  documents : grounds.strict → ∀ id, Placeable id → ∀ content,
    before.entry? (optimizedPlace grounds.target id) = some (.file content) →
      after.entry? (optimizedPlace grounds.target id) = some (.file content)
  sources : grounds.saving → ∀ location, grounds.sources.goal grounds.current <+: location →
    after.entryAt? location = before.entryAt? location

namespace Onward

variable {before between after : Disk}

theorem refl (disk : Disk) : grounds.Onward disk disk :=
  ⟨fun _ _ stands => stands, fun _ _ _ _ stands => stands, fun _ _ _ => rfl⟩

theorem trans (first : grounds.Onward before between) (second : grounds.Onward between after) :
    grounds.Onward before after where
  stands path safe there := second.stands path safe (first.stands path safe there)
  documents strict id placeable content there :=
    second.documents strict id placeable content (first.documents strict id placeable content there)
  sources saving location below :=
    (second.sources saving location below).trans (first.sources saving location below)

theorem lasting (onward : grounds.Onward before after) (lasting : grounds.Lasting before path) :
    grounds.Lasting after path :=
  ⟨lasting.1, onward.stands path lasting.1 lasting.2⟩

/-- The names of an optimized document stay. -/
theorem names (onward : grounds.Onward before after) (strict : grounds.strict)
    (placeable : Placeable id) {names : List String}
    (reads : namesIn before (optimizedPlace grounds.target id) = .ok names) :
    namesIn after (optimizedPlace grounds.target id) = .ok names := by
  obtain ⟨text, found, stands, document, same⟩ := namesIn_ok.1 reads
  exact namesIn_ok.2 ⟨text, found, onward.documents strict id placeable _ stands, document, same⟩

end Onward

theorem endsInName_optimizedPlace (placeable : Placeable id) (target : Path) :
    (optimizedPlace target id).EndsInName :=
  endsInName_stage isName_optimized isExtension_document placeable target

/-- No file stands at a location. -/
def Vacant (disk : Disk) (location : Location) : Prop :=
  ∀ content, disk.entryAt? location ≠ some (.file content)

/-- Writing files, and moving the siblings of catalog files away, leads onward when no optimized
document is written again. -/
theorem onward_of_touches (firm : grounds.Firm) {written gone made : List Location}
    {before after : Disk} (here : before.current = grounds.current)
    (touches : Touches written gone made before after)
    (siblings : ∀ location ∈ gone, location ∈ grounds.siblings)
    (fresh : grounds.strict → ∀ id, Placeable id →
      (optimizedPlace grounds.target id).goal grounds.current ∈ written →
        Vacant before ((optimizedPlace grounds.target id).goal grounds.current))
    (outside : grounds.saving → ∀ location, grounds.sources.goal grounds.current <+: location →
      location ∉ written ∧ location ∉ gone ∧ location ∉ made) :
    grounds.Onward before after where
  stands path safe there := by
    refine touches.exists?_stays (fun lost => safe.sibling (siblings _ ?_)) there
    rw [← here]
    exact lost
  documents strict id placeable content there := by
    have ends := endsInName_optimizedPlace placeable grounds.target
    have safe := safe_inside firm
      (inside_optimizedPlace placeable.storable grounds.target grounds.current)
    obtain ⟨_, passable, stands⟩ := Disk.entry_eq_some there
    rw [here] at stands
    rw [Disk.entry_of_name ends (touches.passable passable), touches.current, here]
    refine touches.stays (fun wrote => ?_) (fun lost => safe.sibling (siblings _ lost)) stands
    exact fresh strict id placeable wrote content stands
  sources saving location below := by
    obtain ⟨unwritten, kept, unmade⟩ := outside saving location below
    exact touches.untouched unwritten kept unmade

end Grounds

/-! ## Records -/

/-- An optimized document of a catalog refers to a name. -/
def Referred (grounds : Grounds) (disk : Disk) (catalog : Catalog) (name : String) : Prop :=
  ∃ id record, catalog.find? id = some record ∧ record.optimized.isSome = true ∧ Placeable id ∧
    ∃ names, namesIn disk (optimizedPlace grounds.target id) = .ok names ∧ name ∈ names

/-- The disk and the catalog bear a record out. -/
structure Borne (grounds : Grounds) (disk : Disk) (catalog : Catalog) (record : Record) : Prop where
  storable : record.source.isSome = true → Storable record.id
  placeable : grounds.strict → record.source.isSome = true → Placeable record.id
  parsed : record.xmir.isSome = true → record.source.isSome = true
  optimized : record.optimized.isSome = true → record.xmir.isSome = true
  discovered : record.discovered.isSome = true → record.optimized.isSome = true
  pulled : record.pulled = true → record.source.isSome = true
  source : ∀ path ∈ record.source, grounds.Lasting disk path ∧
    (path = pulledPlace grounds.target record.id ∨ grounds.Local path)
  xmir : ∀ path ∈ record.xmir, grounds.Lasting disk path ∧
    path = parsedPlace grounds.target record.id
  document : ∀ path ∈ record.optimized, grounds.Lasting disk path ∧
    path = optimizedPlace grounds.target record.id
  discoveredAt : ∀ path ∈ record.discoveredAt, grounds.Lasting disk path ∧
    ∃ id, path = optimizedPlace grounds.target id
  /-- What a discovered document refers to has a record. -/
  closed : grounds.strict → record.discovered.isSome = true →
    ∃ names, namesIn disk (optimizedPlace grounds.target record.id) = .ok names ∧
      ∀ name ∈ names, ∃ other, catalog.find? name = some other
  /-- A pulled source has its place, where it is. -/
  place : record.pulled = true → checkPlace record.id = .ok () ∧
    grounds.Lasting disk (pulledPlace grounds.target record.id)
  /-- A pulled object is one that an optimized document refers to. -/
  referred : grounds.strict → record.pulled = true → Referred grounds disk catalog record.id
  kept : grounds.saving → record.pulled = true →
    record.source = some (pulledPlace grounds.target record.id)

variable {grounds : Grounds} {disk next : Disk} {catalog grown : Catalog} {record : Record}
  {id : String}

theorem Referred.later {name : String} (referred : Referred grounds disk catalog name)
    (strict : grounds.strict) (onward : grounds.Onward disk next) (grows : catalog.Grows grown) :
    Referred grounds next grown name := by
  obtain ⟨id, record, found, optimized, placeable, names, reads, member⟩ := referred
  obtain ⟨last, foundLast, within⟩ := grows id record found
  exact ⟨id, last, foundLast, within.optimized optimized, placeable, names,
    onward.names strict placeable reads, member⟩

/-- A record that no stage has touched is borne out. -/
theorem borne_ofId (id : String) : Borne grounds disk catalog (.ofId id) := by
  constructor <;> simp [Record.ofId]

/-- What bears a record out stays when the disk moves onward and the catalog grows. -/
theorem Borne.later (borne : Borne grounds disk catalog record) (onward : grounds.Onward disk next)
    (grows : catalog.Grows grown) : Borne grounds next grown record where
  storable := borne.storable
  placeable := borne.placeable
  parsed := borne.parsed
  optimized := borne.optimized
  discovered := borne.discovered
  pulled := borne.pulled
  source path member := ⟨onward.lasting (borne.source path member).1, (borne.source path member).2⟩
  xmir path member := ⟨onward.lasting (borne.xmir path member).1, (borne.xmir path member).2⟩
  document path member :=
    ⟨onward.lasting (borne.document path member).1, (borne.document path member).2⟩
  discoveredAt path member :=
    ⟨onward.lasting (borne.discoveredAt path member).1, (borne.discoveredAt path member).2⟩
  closed strict discovered := by
    have sourced := borne.parsed (borne.optimized (borne.discovered discovered))
    obtain ⟨names, reads, known⟩ := borne.closed strict discovered
    refine ⟨names, onward.names strict (borne.placeable strict sourced) reads, ?_⟩
    intro name member
    obtain ⟨other, found⟩ := known name member
    obtain ⟨last, foundLast, _⟩ := grows name other found
    exact ⟨last, foundLast⟩
  place pulled := ⟨(borne.place pulled).1, onward.lasting (borne.place pulled).2⟩
  referred strict pulled := (borne.referred strict pulled).later strict onward grows
  kept := borne.kept

theorem isText_placeBelow {directory : Path} (written : directory.IsText) (extension : String) :
    ∀ parts, (ObjectName.placeBelow directory extension parts).IsText := by
  intro parts
  induction parts generalizing directory with
  | nil => exact written
  | cons first rest inductionHypothesis =>
    cases rest with
    | nil => exact written.child _
    | cons second more => exact inductionHypothesis (written.child first)

/-- The place of an object is written as a text. -/
theorem isText_place {directory : Path} (written : directory.IsText) (id extension : String) :
    (ObjectName.place id directory extension).IsText := by
  rw [ObjectName.place_eq]
  refine isText_placeBelow ?_ extension _
  unfold ObjectName.versionedIn
  cases (ObjectName.split id).2 with
  | none => exact written
  | some tag => exact written.child tag

theorem Borne.textual (firm : grounds.Firm) (borne : Borne grounds disk catalog record) :
    record.Textual where
  source path member := by
    rcases (borne.source path member).2 with same | isLocal
    · rw [same]
      exact isText_place (firm.target.child _) _ _
    · exact isLocal.isText firm
  xmir path member := by
    rw [(borne.xmir path member).2]
    exact isText_place (firm.target.child _) _ _
  optimized path member := by
    rw [(borne.document path member).2]
    exact isText_place (firm.target.child _) _ _
  discoveredAt path member := by
    obtain ⟨id, same⟩ := (borne.discoveredAt path member).2
    rw [same]
    exact isText_place (firm.target.child _) _ _

/-! ## Workspaces -/

/-- The catalog of a build, with every record borne out by a disk. -/
structure Upheld (grounds : Grounds) (disk : Disk) (catalog : Catalog) : Prop where
  path : catalog.path = catalogPath grounds.target
  sorted : catalog.Sorted
  records : ∀ record ∈ catalog.records, Borne grounds disk catalog record

theorem Upheld.onward (upheld : Upheld grounds disk catalog) (onward : grounds.Onward disk next) :
    Upheld grounds next catalog :=
  ⟨upheld.path, upheld.sorted,
    fun record member => (upheld.records record member).later onward (.refl catalog)⟩

theorem Upheld.found (upheld : Upheld grounds disk catalog) (found : catalog.find? id = some record) :
    Borne grounds disk catalog record :=
  upheld.records record (Catalog.mem_of_find? found)

/-- A record that is borne out may be put in the place of one that it has grown from. -/
theorem Upheld.put (upheld : Upheld grounds disk catalog)
    (within : ∀ old, catalog.find? record.id = some old → old.Within record)
    (borne : Borne grounds disk (catalog.put record) record) :
    Upheld grounds disk (catalog.put record) where
  path := upheld.path
  sorted := Catalog.sorted_put upheld.sorted
  records other member := by
    rcases Ordered.mem_of_mem_put member with same | before
    · rw [same]
      exact borne
    · exact (upheld.records other before).later (.refl disk) (Catalog.grows_put within)

/-- A disk of a build: a tree with well named entries. -/
structure Grounded (grounds : Grounds) (disk : Disk) : Prop where
  sound : disk.Sound
  named : disk.WellNamed
  current : disk.current = grounds.current

/-- What can be read from the file of the catalog is a catalog with every record borne out. -/
def Stored (grounds : Grounds) (disk : Disk) : Prop :=
  ∀ text records, disk.entryAt? ((catalogPath grounds.target).goal grounds.current) =
      some (.file (.text text)) → Record.allOfText? text = some records →
    Upheld grounds disk ⟨catalogPath grounds.target, Catalog.recordsOf records⟩

/-- A workspace whose catalog is borne out by its disk, and so is the one in the catalog file. -/
structure Steady (grounds : Grounds) (present : Workspace) : Prop where
  grounded : Grounded grounds present.disk
  foreign : Upheld grounds present.disk present.foreign
  external : present.external.path = grounds.externalPath
  stored : Stored grounds present.disk

theorem Stored.onward (stored : Stored grounds disk) (onward : grounds.Onward disk next)
    (same : ∀ content, next.entryAt? ((catalogPath grounds.target).goal grounds.current) =
      some (.file content) → disk.entryAt? ((catalogPath grounds.target).goal grounds.current) =
        some (.file content)) : Stored grounds next :=
  fun text records stands reads => (stored text records (same _ stands) reads).onward onward

/-- A catalog that was written with every record borne out is read as such a catalog. -/
theorem Upheld.read (firm : grounds.Firm) (upheld : Upheld grounds disk catalog)
    {records : List Record} (reads : Record.allOfText? catalog.render = some records) :
    Upheld grounds disk ⟨catalogPath grounds.target, Catalog.recordsOf records⟩ := by
  unfold Catalog.render at reads
  rw [Record.allOfText?_renderAll fun record member => (upheld.records record member).textual firm]
    at reads
  split at reads
  · unfold Catalog.recordsOf
    rw [← Option.some.inj reads, Ordered.ofList_of_ascending upheld.sorted, ← upheld.path]
    exact upheld
  · exact absurd reads (by simp)

/-- What a workspace opens is a catalog with every record borne out. -/
theorem Stored.opened (stored : Stored grounds disk) (current : disk.current = grounds.current)
    (opened : Catalog.openAt disk (catalogPath grounds.target) = .ok catalog) :
    Upheld grounds disk catalog := by
  rcases Catalog.openAt_cases opened with ⟨_, rfl⟩ | ⟨text, records, stands, reads, rfl⟩
  · exact ⟨rfl, List.Pairwise.nil, fun record member => absurd member (by simp)⟩
  · have here := (Disk.entry_eq_some stands).2.2
    rw [current] at here
    exact stored text records here reads

end EoAssembly.Build
