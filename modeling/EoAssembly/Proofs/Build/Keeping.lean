import EoAssembly.Proofs.Build.Regime
import EoAssembly.Proofs.Build.Steady

/-!
Contract: what writing files and catalogs does to a steady workspace.

A catalog whose records are borne out can be written at any time: where this fails, the
file holds what it held.  A file may be written beside the catalog files where no
optimized document stands, and a store may change files of its own.

Owns `Held` and `Saved`, which say that catalog files are as the catalogs in memory,
`Beside`, and the regime of builds.

Does not own: the operations of a build as steps.
-/

namespace EoAssembly

/-- A store gives its files names of their own. -/
def Remote.KeepsNames (remote : Remote) : Prop :=
  ∀ name (disk : Disk), disk.WellNamed → (remote.fetch name disk).2.WellNamed

namespace Build

open Disk (Touches)
open ObjectName (Placeable)
open Path (IsName)

/-! ## The catalog files -/

/-- The file names of the catalogs of a build. -/
def catalogNames : List String := [Catalogs.foreignFile, Catalogs.externalFile]

theorem catalogNames_plain : ∀ file ∈ catalogNames, IsName file ∧ IsName (file ++ ".tmp") ∧
    file ∈ catalogFiles ∧ (file ++ ".tmp") ∈ catalogFiles ∧ file ++ ".tmp" ≠ file := by decide

namespace Grounds

variable {grounds : Grounds} {disk next : Disk} {catalog : Catalog} {file : String}

/-- A location in the target. -/
def spot (grounds : Grounds) (file : String) : Location :=
  grounds.target.goal grounds.current ++ [file]

theorem goal_catalog (known : file ∈ catalogNames) (path : catalog.path = grounds.target.child file) :
    catalog.path.goal grounds.current = grounds.spot file := by
  rw [path]
  exact Path.goal_of_names grounds.current
    (Path.components_child grounds.target (catalogNames_plain file known).1)

theorem way_catalog (known : file ∈ catalogNames) (path : catalog.path = grounds.target.child file)
    {reached : Location} (member : reached ∈ catalog.path.way grounds.current) :
    reached ∈ grounds.target.way grounds.current ∨ reached = grounds.spot file := by
  have components : (grounds.target.child file).components =
      grounds.target.components ++ [file].map Path.Component.named :=
    Path.components_child grounds.target (catalogNames_plain file known).1
  rw [path, Path.mem_way_of_names grounds.current components] at member
  refine member.imp_right ?_
  rintro ⟨front, some_, first, same⟩
  rcases List.prefix_cons_iff.1 first with none | ⟨rest, whole, none⟩
  · exact absurd none some_
  · rw [same, whole, List.prefix_nil.1 none]
    rfl

theorem goal_catalog_sibling (firm : grounds.Firm) (known : file ∈ catalogNames)
    (path : catalog.path = grounds.target.child file) :
    catalog.sibling.goal grounds.current = grounds.spot (file ++ ".tmp") := by
  obtain ⟨plain, longer, _⟩ := catalogNames_plain file known
  unfold Catalog.sibling
  rw [path, Path.extended_child firm.target plain longer]
  exact Path.goal_of_names grounds.current (Path.components_child grounds.target longer)

theorem sibling_mem (known : file ∈ catalogNames) :
    grounds.spot (file ++ ".tmp") ∈ grounds.siblings := by
  simp only [catalogNames, List.mem_cons, List.not_mem_nil, or_false] at known
  rcases known with same | same
  · rw [same]
    exact List.mem_cons_self
  · rw [same]
    exact List.mem_cons_of_mem _ List.mem_cons_self

/-- The sources hold nothing of the way to the target, and nothing in it. -/
theorem outside_sources (firm : grounds.Firm) (saving : grounds.saving) {reached : Location}
    (here : reached ∈ grounds.target.way grounds.current ∨
      grounds.target.goal grounds.current <+: reached) :
    ¬grounds.sources.goal grounds.current <+: reached := by
  have separate := firm.separate saving
  intro below
  rcases here with onWay | inside
  · exact separate.targetSources.way onWay below
  · rcases List.prefix_or_prefix_of_prefix below inside with wrong | wrong
    · exact separate.targetSources.goal wrong
    · exact separate.sourcesTarget.goal wrong

/-- What a catalog file is written with touches the catalog file, its sibling and the way. -/
theorem touches_persist (firm : grounds.Firm) (grounded : Grounded grounds disk)
    (known : file ∈ catalogNames) (path : catalog.path = grounds.target.child file)
    {outcome : Except Failure Unit} (ran : catalog.persist disk = (outcome, next)) :
    Touches [grounds.spot file, grounds.spot (file ++ ".tmp")] [grounds.spot (file ++ ".tmp")]
      (catalog.path.way grounds.current) disk next := by
  have plain := (catalogNames_plain file known).1
  have ends : catalog.path.EndsInName := by
    rw [path]
    exact Path.endsInName_child grounds.target plain
  have touches := Catalog.touches_persist grounded.sound ends ran
  rw [grounded.current, goal_catalog known path, goal_catalog_sibling firm known path] at touches
  exact touches

theorem onward_persist (firm : grounds.Firm) (grounded : Grounded grounds disk)
    (known : file ∈ catalogNames) (path : catalog.path = grounds.target.child file)
    {outcome : Except Failure Unit} (ran : catalog.persist disk = (outcome, next)) :
    grounds.Onward disk next ∧ Grounded grounds next := by
  obtain ⟨plain, _, isCatalog, isSibling, _⟩ := catalogNames_plain file known
  have touches := touches_persist firm grounded known path ran
  constructor
  · refine onward_of_touches firm grounded.current touches (fun location member => ?_)
      (fun strict id placeable wrote => ?_) fun saving location below => ?_
    · rw [List.mem_singleton.1 member]
      exact sibling_mem known
    · have inside := inside_optimizedPlace placeable.storable grounds.target grounds.current
      rcases List.mem_cons.1 wrote with same | behind
      · exact absurd same (inside.not_catalog isCatalog)
      · exact absurd (List.mem_singleton.1 behind) (inside.not_catalog isSibling)
    · have here : ∀ name, location ≠ grounds.spot name := by
        intro name same
        rw [same] at below
        exact outside_sources firm saving (Or.inr (List.prefix_append _ [name])) below
      refine ⟨by simp [here], by simp [here], fun member => ?_⟩
      rcases way_catalog known path member with onWay | atGoal
      · exact outside_sources firm saving (Or.inl onWay) below
      · exact here file atGoal
  · refine ⟨touches.sound, ?_, touches.current.trans grounded.current⟩
    have slashless : catalog.path.Slashless := by
      rw [path]
      exact Path.slashless_child (Path.isText_iff.1 firm.target).2 file
    have ends : catalog.path.EndsInName := by
      rw [path]
      exact Path.endsInName_child grounds.target plain
    exact grounded.named.persist grounded.sound slashless ends ran

end Grounds

section Persist

open Grounds

variable {grounds : Grounds} {present : Workspace} {catalog : Catalog} {next : Disk}

/-- A catalog with every record borne out leaves a workspace steady, whether or not its file
can be written. -/
theorem Steady.persist (firm : grounds.Firm) (steady : Steady grounds present)
    (upheld : Upheld grounds present.disk catalog) {outcome : Except Failure Unit}
    (ran : catalog.persist present.disk = (outcome, next)) :
    grounds.Onward present.disk next ∧
      Steady grounds { present with foreign := catalog, disk := next } := by
  have known : Catalogs.foreignFile ∈ catalogNames := List.mem_cons_self
  have plain := catalogNames_plain _ known
  have path : catalog.path = grounds.target.child Catalogs.foreignFile := upheld.path
  obtain ⟨onward, grounded⟩ := onward_persist firm steady.grounded known path ran
  refine ⟨onward, grounded, upheld.onward onward, steady.external,
    fun text records stands reads => ?_⟩
  have goal := goal_catalog known path
  have ends : catalog.path.EndsInName := by
    rw [path]
    exact Path.endsInName_child grounds.target plain.1
  have current := steady.grounded.current
  have apart : catalog.sibling.goal present.disk.current ≠ catalog.path.goal present.disk.current := by
    rw [current, goal, goal_catalog_sibling firm known path]
    intro same
    exact plain.2.2.2.2 (List.singleton_inj.1 (List.append_cancel_left same))
  have atGoal : (catalogPath grounds.target).goal grounds.current =
      catalog.path.goal present.disk.current := by rw [current, upheld.path]
  rw [atGoal] at stands
  rcases Catalog.persist_file steady.grounded.sound apart ran stands with same | before
  · rw [FileContent.text.inj same] at reads
    exact (upheld.onward onward).read firm reads
  · rw [← atGoal] at before
    exact (steady.stored text records before reads).onward onward

/-- The catalog of exported objects leaves a workspace steady, whether or not its file can be
written. -/
theorem Steady.persistExternal (firm : grounds.Firm) (steady : Steady grounds present)
    (path : catalog.path = grounds.externalPath) {outcome : Except Failure Unit}
    (ran : catalog.persist present.disk = (outcome, next)) :
    grounds.Onward present.disk next ∧
      Steady grounds { present with external := catalog, disk := next } := by
  have known : Catalogs.externalFile ∈ catalogNames := List.mem_cons_of_mem _ List.mem_cons_self
  obtain ⟨onward, grounded⟩ := onward_persist firm steady.grounded known path ran
  refine ⟨onward, grounded, steady.foreign.onward onward, path,
    steady.stored.onward onward fun content stands => ?_⟩
  have touches := touches_persist firm steady.grounded known path ran
  rw [goal_catalogPath] at stands ⊢
  have apart : ∀ name ∈ [Catalogs.externalFile, Catalogs.externalFile ++ ".tmp"],
      name ≠ Catalogs.foreignFile := by decide
  have free : ∀ name ∈ [Catalogs.externalFile, Catalogs.externalFile ++ ".tmp"],
      grounds.target.goal grounds.current ++ [Catalogs.foreignFile] ≠ grounds.spot name :=
    fun name member same => apart name member (List.singleton_inj.1 (List.append_cancel_left same)).symm
  refine touches.file_before ?_ ?_ stands
  · simpa using ⟨free _ List.mem_cons_self, free _ (List.mem_cons_of_mem _ List.mem_cons_self)⟩
  · simpa using free _ (List.mem_cons_of_mem _ List.mem_cons_self)

end Persist

/-! ## Saved catalogs -/

/-- The file of a catalog holds its records, and there is none while it has no records. -/
structure Held (grounds : Grounds) (file : String) (disk : Disk) (catalog : Catalog) : Prop where
  holds : disk.entryAt? (grounds.spot file) = some (.file (.text catalog.render)) ∨
    catalog.records = [] ∧ disk.entryAt? (grounds.spot file) = none
  sibling : disk.entryAt? (grounds.spot (file ++ ".tmp")) = none
  passable : catalog.records ≠ [] → disk.Passable grounds.target
  allowed : catalog.records ≠ [] → (grounds.spot file).all Disk.nameAllowed = true ∧
    (grounds.spot (file ++ ".tmp")).all Disk.nameAllowed = true

/-- A record of an exported object has a source in the sources and no more files. -/
structure Exported (grounds : Grounds) (record : Record) : Prop where
  source : ∀ path ∈ record.source, grounds.Local path
  xmir : record.xmir = none
  optimized : record.optimized = none
  discoveredAt : record.discoveredAt = none

/-- Both catalogs are as their files say. -/
structure Saved (grounds : Grounds) (present : Workspace) : Prop where
  foreign : Held grounds Catalogs.foreignFile present.disk present.foreign
  external : Held grounds Catalogs.externalFile present.disk present.external
  sorted : present.external.Sorted
  exported : ∀ record ∈ present.external.records, Exported grounds record

section Held

variable {grounds : Grounds} {disk next : Disk} {catalog : Catalog} {file : String}

theorem Held.touch {written gone made : List Location} (held : Held grounds file disk catalog)
    (touches : Touches written gone made disk next)
    (free : ∀ name ∈ [file, file ++ ".tmp"], grounds.spot name ∉ written ∧
      grounds.spot name ∉ gone ∧ grounds.spot name ∉ made) : Held grounds file next catalog := by
  obtain ⟨unwritten, kept, unmade⟩ := free file List.mem_cons_self
  obtain ⟨unwrittenSibling, keptSibling, unmadeSibling⟩ :=
    free (file ++ ".tmp") (List.mem_cons_of_mem _ List.mem_cons_self)
  refine ⟨?_, touches.none_stays unwrittenSibling keptSibling unmadeSibling held.sibling,
    fun some_ => touches.passable (held.passable some_), held.allowed⟩
  rcases held.holds with stands | ⟨empty, nothing⟩
  · exact Or.inl (touches.stays unwritten kept stands)
  · exact Or.inr ⟨empty, touches.none_stays unwritten kept unmade nothing⟩

theorem held_persist (firm : grounds.Firm) (grounded : Grounded grounds disk)
    (known : file ∈ catalogNames) (path : catalog.path = grounds.target.child file)
    (ran : catalog.persist disk = (.ok (), next)) : Held grounds file next catalog := by
  obtain ⟨plain, _, _, _, longer⟩ := catalogNames_plain file known
  have goal := Grounds.goal_catalog known path
  have sibling := Grounds.goal_catalog_sibling firm known path
  have apart : catalog.sibling.goal disk.current ≠ catalog.path.goal disk.current := by
    rw [grounded.current, goal, sibling]
    exact fun same => longer (List.singleton_inj.1 (List.append_cancel_left same))
  obtain ⟨stands, gone⟩ := Catalog.persist_stands grounded.sound apart ran
  rw [grounded.current, goal] at stands
  rw [grounded.current, sibling] at gone
  have allowed := Catalog.persist_allowed grounded.sound ran
  rw [grounded.current, goal, sibling] at allowed
  refine ⟨Or.inl stands, gone, fun _ => ?_, fun _ => allowed⟩
  obtain ⟨passable, _⟩ := Catalog.persist_ok grounded.sound ran
  have left : catalog.path.left next.current = grounds.target.left next.current := by
    have components : (grounds.target.child file).components =
        grounds.target.components ++ [file].map Path.Component.named :=
      Path.components_child grounds.target plain
    rw [path]
    exact Path.left_of_names next.current components
  unfold Disk.Passable at passable ⊢
  rw [left] at passable
  exact passable

theorem Held.persist_other {other : String} {written : Catalog} (firm : grounds.Firm)
    (saving : grounds.saving) (grounded : Grounded grounds disk)
    (held : Held grounds file disk catalog) (known : other ∈ catalogNames)
    (apart : ∀ name ∈ [file, file ++ ".tmp"], name ≠ other ∧ name ≠ other ++ ".tmp")
    (path : written.path = grounds.target.child other) {outcome : Except Failure Unit}
    (ran : written.persist disk = (outcome, next)) : Held grounds file next catalog := by
  refine held.touch (Grounds.touches_persist firm grounded known path ran) fun name member => ?_
  obtain ⟨notFile, notSibling⟩ := apart name member
  have different : ∀ file, name ≠ file → grounds.spot name ≠ grounds.spot file :=
    fun file apart same => apart (List.singleton_inj.1 (List.append_cancel_left same))
  refine ⟨by simp [different _ notFile, different _ notSibling], by simp [different _ notSibling],
    fun made => ?_⟩
  rcases Grounds.way_catalog known path made with onWay | atGoal
  · have itself := (firm.separate saving).directTarget _ onWay (List.prefix_append _ _)
    have wrong : grounds.target.goal grounds.current ++ [name] =
        grounds.target.goal grounds.current := itself
    simp at wrong
  · exact different other notFile atGoal

end Held

/-! ## The regime of a build -/

/-- Builds keep a workspace steady and lead onward; where they stop on strict grounds, the
workspace is steady as well. -/
def Grounds.regime (grounds : Grounds) : Regime where
  holds present := Steady grounds present ∧ (grounds.saving → Saved grounds present)
  later before after := grounds.Onward before.disk after.disk ∧ before.foreign.Grows after.foreign
  stopped present := grounds.strict → Steady grounds present
  refl _ := ⟨.refl _, .refl _⟩
  trans first second := ⟨first.1.trans second.1, first.2.trans second.2⟩

variable {grounds : Grounds} {remote : Remote} {id : String} {path : Path}

theorem stops_of_holds {present : Workspace} (holds : grounds.regime.holds present) :
    grounds.regime.stopped present := fun _ => holds.1

/-- All records of a catalog have a property. -/
def Throughout (property : Record → Prop) (present : Workspace) : Prop :=
  ∀ record ∈ present.foreign.records, property record

/-- A changed record may take the place of an old one. -/
structure Allowed (grounds : Grounds) (disk : Disk) (catalog : Catalog) (old new : Record) : Prop where
  within : old.Within new
  borne : Borne grounds disk (catalog.put new) new
  /-- Only a record that is equal counts as the same. -/
  same : grounds.saving → new.same old = true → new = old

theorem throughout_put {property : Record → Prop} {present : Workspace} {record : Record}
    (here : Throughout property present) (holds : property record) :
    ∀ other ∈ (present.foreign.put record).records, property other := by
  intro other member
  rcases Ordered.mem_of_mem_put member with same | before
  · rw [same]
    exact holds
  · exact here other before

/-- A record that counts as the same as another is equal to it when their paths are. -/
theorem eq_of_same {new old : Record} (same : new.same old = true)
    (source : Record.componentsOf new.source = Record.componentsOf old.source →
      new.source = old.source)
    (xmir : Record.componentsOf new.xmir = Record.componentsOf old.xmir → new.xmir = old.xmir)
    (optimized : Record.componentsOf new.optimized = Record.componentsOf old.optimized →
      new.optimized = old.optimized)
    (discoveredAt : Record.componentsOf new.discoveredAt = Record.componentsOf old.discoveredAt →
      new.discoveredAt = old.discoveredAt) : new = old := by
  obtain ⟨_, _, _, _, _, _, _, _, _, _⟩ := new
  obtain ⟨_, _, _, _, _, _, _, _, _, _⟩ := old
  simp only [Record.same, Bool.and_eq_true, beq_iff_eq] at same
  obtain ⟨⟨⟨⟨⟨⟨⟨⟨⟨isId, isSource⟩, isXmir⟩, isOptimized⟩, isDiscoveredAt⟩, isDiscovered⟩, isPulled⟩,
    isVersion⟩, isHash⟩, isStatus⟩ := same
  have sources := source isSource
  have documents := xmir isXmir
  have results := optimized isOptimized
  have origins := discoveredAt isDiscoveredAt
  simp only at sources documents results origins
  rw [isId, sources, documents, results, origins, isDiscovered, isPulled, isVersion, isHash, isStatus]

theorem Grounds.Local.eq_of_components {path other : Path} (here : grounds.Local path)
    (there : grounds.Local other) (same : path.components = other.components) : path = other := by
  obtain ⟨names, some_, plain, isPath⟩ := here
  obtain ⟨others, someOther, plainOther, isOther⟩ := there
  rw [isPath, isOther] at same ⊢
  rw [Path.components_join_names _ some_ fun name member => (plain name member).names,
    Path.components_join_names _ someOther fun name member => (plainOther name member).names,
    List.append_cancel_left_eq] at same
  rw [(List.map_injective_iff.2 fun _ _ equal => Path.Component.named.inj equal) same]

theorem Exported.eq_of_same {new old : Record} (exported : Exported grounds new)
    (before : Exported grounds old) (same : new.same old = true) : new = old := by
  refine Build.eq_of_same same (fun agree => ?_) (fun _ => ?_) (fun _ => ?_) (fun _ => ?_)
  · have here := exported.source
    have there := before.source
    cases isNew : new.source with
    | none =>
      cases isOld : old.source with
      | none => rfl
      | some path => simp [isNew, isOld, Record.componentsOf] at agree
    | some path =>
      cases isOld : old.source with
      | none => simp [isNew, isOld, Record.componentsOf] at agree
      | some other =>
        simp only [isNew, isOld, Record.componentsOf, Option.map_some, Option.some.injEq] at agree
        rw [(here path (by simp [isNew])).eq_of_components (there other (by simp [isOld])) agree]
  · rw [exported.xmir, before.xmir]
  · rw [exported.optimized, before.optimized]
  · rw [exported.discoveredAt, before.discoveredAt]

/-! ## Files beside the catalogs -/

/-- A path to a file that a build may write. -/
structure Beside (grounds : Grounds) (path : Path) : Prop where
  slashless : path.Slashless
  apart : ∀ file ∈ catalogFiles, path.goal grounds.current ≠ grounds.spot file
  ends : grounds.strict → path.EndsInName
  clear : grounds.saving → (∀ reached, reached = path.goal grounds.current ∨
      reached ∈ path.way grounds.current → ¬grounds.sources.goal grounds.current <+: reached) ∧
    ∀ file ∈ catalogFiles, grounds.spot file ∉ path.way grounds.current

/-- No optimized document stands where a path leads. -/
def Unread (grounds : Grounds) (path : Path) (disk : Disk) : Prop :=
  grounds.strict → ∀ id, Placeable id →
    (optimizedPlace grounds.target id).goal grounds.current = path.goal grounds.current →
      Grounds.Vacant disk (path.goal grounds.current)

theorem Beside.touch (beside : Beside grounds path) (firm : grounds.Firm) {present : Workspace}
    {disk : Disk} {text : String} {outcome : Except Failure Unit}
    (holds : grounds.regime.holds present) (unread : Unread grounds path present.disk)
    (ends : path.EndsInName) (ran : Document.writeBelow present.disk path text = (outcome, disk)) :
    grounds.Onward present.disk disk ∧ Grounded grounds disk ∧ Stored grounds disk := by
  have grounded := holds.1.grounded
  have touches := Document.touches_writeBelow grounded.sound ends ran
  rw [grounded.current] at touches
  have onward : grounds.Onward present.disk disk := by
    refine Grounds.onward_of_touches firm grounded.current touches (by simp)
      (fun strict id placeable wrote => ?_) fun saving location below => ?_
    · have same := List.mem_singleton.1 wrote
      rw [same]
      exact unread strict id placeable same
    · have clear := (beside.clear saving).1
      refine ⟨fun wrote => ?_, by simp, fun made => clear location (Or.inr made) below⟩
      exact clear location (Or.inl (List.mem_singleton.1 wrote)) below
  refine ⟨onward, ⟨touches.sound, grounded.named.writeBelow grounded.sound beside.slashless ends ran,
    touches.current.trans grounded.current⟩, holds.1.stored.onward onward fun content stands => ?_⟩
  have isCatalog : Catalogs.foreignFile ∈ catalogFiles := by decide
  rw [goal_catalogPath] at stands ⊢
  refine touches.file_before ?_ (by simp) stands
  rw [List.mem_singleton]
  exact Ne.symm (beside.apart _ isCatalog)

/-! ## Files of the store -/

/-- A change of files of the store leads onward. -/
theorem onward_of_own (firm : grounds.Firm) {disk next : Disk} (here : disk.current = grounds.current)
    (current : next.current = disk.current)
    (outside : ∀ location, ¬grounds.own location → next.entryAt? location = disk.entryAt? location) :
    grounds.Onward disk next := by
  have same : ∀ path : Path, grounds.Safe path → next.entry? path = disk.entry? path := by
    intro path safe
    refine Disk.entry_congr current (Disk.passable_congr current fun passed member => ?_)
      (outside _ (by rw [here]; exact safe.goal))
    rw [here] at member
    exact outside passed (safe.left passed member)
  refine ⟨fun path safe there => ?_, fun _ id placeable content there => ?_,
    fun _ location below => outside location fun owned => (firm.ownSources location owned).1 below⟩
  · rw [Disk.exists?_congr (same path safe)]
    exact there
  · rw [same _ (Grounds.safe_inside firm
      (inside_optimizedPlace placeable.storable grounds.target grounds.current))]
    exact there

theorem Held.own {disk next : Disk} {catalog : Catalog} {file : String}
    (held : Held grounds file disk catalog) (firm : grounds.Firm)
    (here : disk.current = grounds.current) (current : next.current = disk.current)
    (outside : ∀ location, ¬grounds.own location → next.entryAt? location = disk.entryAt? location) :
    Held grounds file next catalog := by
  have free : ∀ name, ¬grounds.own (grounds.spot name) := fun name owned =>
    (firm.ownTarget _ owned).1 (List.prefix_append _ [name])
  refine ⟨?_, ?_, fun some_ => ?_, held.allowed⟩
  · rw [outside _ (free file)]
    exact held.holds
  · rw [outside _ (free _)]
    exact held.sibling
  · refine (Disk.passable_congr current fun passed member => ?_).2 (held.passable some_)
    rw [here] at member
    exact outside passed fun owned => (firm.ownTarget passed owned).2 member

end Build

end EoAssembly
