import EoAssembly.Proofs.Build.Tending

/-!
Contract: the changes that stages make to records are allowed.

Each stage knows enough about an object when it changes its record: that the source is
there, that the document was just written, that all names found in it have records.

Owns one lemma for each change of a stage.
-/

namespace EoAssembly.Build

open ObjectName (Placeable Storable checkPlace placeable_of_checkPlace)

variable {grounds : Grounds} {disk : Disk} {catalog : Catalog} {old : Record} {path : Path}

/-- A path in the sources has other components than the place of a pulled source. -/
theorem Grounds.Local.ne_pulledPlace (firm : grounds.Firm) (saving : grounds.saving) {id : String}
    (storable : Storable id) (isLocal : grounds.Local path) :
    path.components ≠ (pulledPlace grounds.target id).components := by
  intro same
  obtain ⟨names, some_, plain, isPath⟩ := isLocal
  have components := Path.components_join_names grounds.sources some_
    fun name member => (plain name member).names
  rw [← isPath] at components
  have goals : path.goal grounds.current = (pulledPlace grounds.target id).goal grounds.current := by
    unfold Path.goal
    rw [same]
  refine Grounds.outside_sources firm saving (Or.inr (inside_pulledPlace storable grounds.target
    grounds.current).below) ?_
  rw [← goals, Path.goal_of_names grounds.current components]
  exact List.prefix_append _ _

/-- A source that a build records: the place of a pulled source, or a file in the sources. -/
def Grounds.IsSource (grounds : Grounds) (id : String) (path : Path) : Prop :=
  path = pulledPlace grounds.target id ∨ grounds.Local path

theorem Grounds.IsSource.eq_of_components {id : String} {other : Path} (firm : grounds.Firm)
    (saving : grounds.saving) (storable : Storable id) (here : grounds.IsSource id path)
    (there : grounds.IsSource id other) (same : path.components = other.components) :
    path = other := by
  rcases here with pulled | isLocal
  · rcases there with alsoPulled | otherLocal
    · rw [pulled, alsoPulled]
    · rw [pulled] at same
      exact absurd same.symm (otherLocal.ne_pulledPlace firm saving storable)
  · rcases there with otherPulled | otherLocal
    · rw [otherPulled] at same
      exact absurd same (isLocal.ne_pulledPlace firm saving storable)
    · exact isLocal.eq_of_components otherLocal same

theorem source_of_components {id : String} {new : Option Path} (firm : grounds.Firm)
    (saving : grounds.saving) (storable : Storable id) (here : grounds.IsSource id path)
    (there : ∀ other ∈ new, grounds.IsSource id other)
    (same : Record.componentsOf (some path) = Record.componentsOf new) : some path = new := by
  cases new with
  | none => exact absurd same (by simp [Record.componentsOf])
  | some other =>
    rw [here.eq_of_components firm saving storable (there other rfl) (Option.some.inj same)]

section Changes

variable (borne : Borne grounds disk catalog old) (found : catalog.find? old.id = some old)

include borne found

/-- What bore a record out bears it out when the record is put in another form. -/
theorem borne_put (new : Record) (sameId : new.id = old.id) (within : old.Within new) :
    Borne grounds disk (catalog.put new) old := by
  refine borne.later (.refl disk) (Catalog.grows_put fun other foundOther => ?_)
  rw [sameId, found] at foundOther
  rw [← Option.some.inj foundOther]
  exact within

theorem allowed_registered (firm : grounds.Firm) (storable : Storable old.id)
    (placeable : grounds.strict → Placeable old.id) (lasting : grounds.Lasting disk path)
    (isLocal : grounds.Local path) (unpulled : grounds.saving → old.pulled = false) :
    Allowed grounds disk catalog old { asRegistered path old with id := old.id } := by
  have within := (StageChange.registered path).within old
  have base := borne_put borne found { asRegistered path old with id := old.id } rfl within
  refine ⟨within, { base with
    storable := fun _ => storable
    placeable := fun strict _ => placeable strict
    parsed := fun _ => rfl
    pulled := fun _ => rfl
    source := ?_
    kept := ?_ }, fun saving same => ?_⟩
  · intro other member
    rw [← Option.some.inj (Option.mem_def.1 member)]
    exact ⟨lasting, Or.inr isLocal⟩
  · intro saving pulled
    exact absurd (pulled.symm.trans (unpulled saving)) (by simp)
  · refine eq_of_same same (fun agree => ?_) (fun _ => rfl) (fun _ => rfl) (fun _ => rfl)
    exact source_of_components firm saving storable (Or.inr isLocal)
      (fun other member => (borne.source other member).2) agree

theorem allowed_parsed (place : path = parsedPlace grounds.target old.id)
    (lasting : grounds.Lasting disk path) (sourced : old.source.isSome = true) :
    Allowed grounds disk catalog old { asParsed path old with id := old.id } := by
  have within := (StageChange.parsed path).within old
  have base := borne_put borne found { asParsed path old with id := old.id } rfl within
  refine ⟨within, { base with
    parsed := fun _ => sourced
    optimized := fun _ => rfl
    xmir := ?_ }, fun _ same => ?_⟩
  · intro other member
    rw [← Option.some.inj (Option.mem_def.1 member)]
    exact ⟨lasting, place⟩
  · refine eq_of_same same (fun _ => rfl) (fun agree => ?_) (fun _ => rfl) (fun _ => rfl)
    have before := borne.xmir
    change Record.componentsOf (some path) = Record.componentsOf old.xmir at agree
    change some path = old.xmir
    cases isOld : old.xmir with
    | none => simp [isOld, Record.componentsOf] at agree
    | some other => rw [(before other (by simp [isOld])).2, place]

theorem allowed_optimized (place : path = optimizedPlace grounds.target old.id)
    (lasting : grounds.Lasting disk path) (hasDocument : old.xmir.isSome = true) :
    Allowed grounds disk catalog old { asOptimized path old with id := old.id } := by
  have within := (StageChange.optimized path).within old
  have base := borne_put borne found { asOptimized path old with id := old.id } rfl within
  refine ⟨within, { base with
    optimized := fun _ => hasDocument
    discovered := fun _ => rfl
    document := ?_ }, fun _ same => ?_⟩
  · intro other member
    rw [← Option.some.inj (Option.mem_def.1 member)]
    exact ⟨lasting, place⟩
  · refine eq_of_same same (fun _ => rfl) (fun _ => rfl) (fun agree => ?_) (fun _ => rfl)
    have before := borne.document
    change Record.componentsOf (some path) = Record.componentsOf old.optimized at agree
    change some path = old.optimized
    cases isOld : old.optimized with
    | none => simp [isOld, Record.componentsOf] at agree
    | some other => rw [(before other (by simp [isOld])).2, place]

theorem allowed_seenIn (lasting : grounds.Lasting disk path)
    (isOptimized : ∃ id, path = optimizedPlace grounds.target id) :
    Allowed grounds disk catalog old { asSeenIn path old with id := old.id } := by
  have within := (StageChange.seenIn path).within old
  have base := borne_put borne found { asSeenIn path old with id := old.id } rfl within
  refine ⟨within, { base with discoveredAt := ?_ }, fun _ same => ?_⟩
  · intro other member
    rw [← Option.some.inj (Option.mem_def.1 member)]
    cases isOld : old.discoveredAt with
    | none => exact ⟨lasting, isOptimized⟩
    | some before => exact borne.discoveredAt before (by simp [isOld])
  · refine eq_of_same same (fun _ => rfl) (fun _ => rfl) (fun _ => rfl) (fun agree => ?_)
    change Record.componentsOf (some (old.discoveredAt.getD path)) =
      Record.componentsOf old.discoveredAt at agree
    change some (old.discoveredAt.getD path) = old.discoveredAt
    cases isOld : old.discoveredAt with
    | none => simp [isOld, Record.componentsOf] at agree
    | some before => rfl

theorem allowed_discovered {count : Nat} (hasResult : old.optimized.isSome = true)
    (closed : grounds.strict →
      ∃ names, namesIn disk (optimizedPlace grounds.target old.id) = .ok names ∧
        ∀ name ∈ names, ∃ other, catalog.find? name = some other) :
    Allowed grounds disk catalog old { asDiscovered count old with id := old.id } := by
  have within := (StageChange.discovered count).within old
  have base := borne_put borne found { asDiscovered count old with id := old.id } rfl within
  refine ⟨within, { base with
    discovered := fun _ => hasResult
    closed := fun strict _ => ?_ }, fun _ same => ?_⟩
  · obtain ⟨names, reads, known⟩ := closed strict
    refine ⟨names, reads, fun name member => ?_⟩
    obtain ⟨other, foundOther⟩ := known name member
    have grows : catalog.Grows (catalog.put { asDiscovered count old with id := old.id }) := by
      refine Catalog.grows_put fun before foundBefore => ?_
      rw [← Option.some.inj (found.symm.trans foundBefore)]
      exact within
    obtain ⟨later, foundLater, _⟩ := grows name other foundOther
    exact ⟨later, foundLater⟩
  · exact eq_of_same same (fun _ => rfl) (fun _ => rfl) (fun _ => rfl) (fun _ => rfl)

theorem allowed_pulled (firm : grounds.Firm) {version hash : Option String}
    (checks : checkPlace old.id = .ok ())
    (lasting : grounds.Lasting disk (pulledPlace grounds.target old.id))
    (referred : grounds.strict → Referred grounds disk catalog old.id) :
    Allowed grounds disk catalog old
      { asPulled (pulledPlace grounds.target old.id) version hash old with id := old.id } := by
  let new : Record :=
    { asPulled (pulledPlace grounds.target old.id) version hash old with id := old.id }
  have placeable := placeable_of_checkPlace checks
  have within := (StageChange.pulled (pulledPlace grounds.target old.id) version hash).within old
  have base := borne_put borne found new rfl within
  have grows : catalog.Grows (catalog.put new) := by
    refine Catalog.grows_put fun before foundBefore => ?_
    rw [← Option.some.inj (found.symm.trans foundBefore)]
    exact within
  refine ⟨within, { base with
    storable := fun _ => placeable.storable
    placeable := fun _ _ => placeable
    parsed := fun _ => rfl
    pulled := fun _ => rfl
    source := ?_
    place := fun _ => ⟨checks, lasting⟩
    referred := fun strict _ => (referred strict).later strict (.refl disk) grows
    kept := fun _ _ => rfl }, fun saving same => ?_⟩
  · intro other member
    rw [← Option.some.inj (Option.mem_def.1 member)]
    exact ⟨lasting, Or.inl rfl⟩
  · refine eq_of_same same (fun agree => ?_) (fun _ => rfl) (fun _ => rfl) (fun _ => rfl)
    exact source_of_components firm saving placeable.storable (Or.inl rfl)
      (fun other member => (borne.source other member).2) agree

end Changes

end EoAssembly.Build
