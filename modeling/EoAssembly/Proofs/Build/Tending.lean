import EoAssembly.Proofs.Build.Keeping

/-!
Contract: every operation of a build leaves a steady workspace steady.

A change of a record is allowed when the changed record is borne out.  An operation that
fails may have changed the records in memory or created directories; on strict grounds
the workspace is steady all the same.

Owns one rule for each operation, in the regime of builds.

Does not own: the stages that are made of these operations.
-/

namespace EoAssembly.Build

variable {grounds : Grounds} {remote : Remote} {id : String} {path : Path}

section Rules

variable (firm : grounds.Firm)

include firm

/-- A record that is put and persisted keeps the regime. -/
theorem regime_put {record : Record} {present : Workspace} {next : Disk}
    (holds : grounds.regime.holds present)
    (within : ∀ old, present.foreign.find? record.id = some old → old.Within record)
    (borne : Borne grounds present.disk (present.foreign.put record) record)
    {outcome : Except Failure Unit}
    (ran : (present.foreign.put record).persist present.disk = (outcome, next)) :
    grounds.regime.Ends present (fun _ _ => True) outcome
      { present with foreign := present.foreign.put record, disk := next } := by
  have upheld := holds.1.foreign.put within borne
  obtain ⟨onward, steady⟩ := holds.1.persist firm upheld ran
  cases outcome with
  | error failure => exact fun _ => steady
  | ok value =>
    refine ⟨⟨steady, fun saving => ?_⟩, ⟨onward, Catalog.grows_put within⟩, trivial⟩
    have saved := holds.2 saving
    have known : Catalogs.foreignFile ∈ catalogNames := List.mem_cons_self
    exact ⟨held_persist firm holds.1.grounded known upheld.path ran,
      saved.external.persist_other firm saving holds.1.grounded known (by decide) upheld.path ran,
      saved.sorted, saved.exported⟩

/-- A record may always be added. -/
theorem governs_add (property : Record → Prop) (fresh : property (.ofId id)) :
    grounds.regime.Governs (Throughout property) (Step.addForeign id) fun record present =>
      present.foreign.find? id = some record ∧ Throughout property present := by
  refine .addForeign (fun _ _ here record found => ⟨found, here⟩)
    fun before holds here missing written disk persisted => ?_
  have within : ∀ old, before.foreign.find? (Record.ofId id).id = some old →
      old.Within (.ofId id) := fun old found => absurd (missing.symm.trans found) (by simp)
  exact (regime_put firm holds within (borne_ofId id) persisted).telling fun _ _ _ =>
    ⟨Catalog.find?_put_same before.foreign (.ofId id), throughout_put here fresh⟩

/-- A record may be changed to one that is borne out. -/
theorem governs_update (property : Record → Prop) {change : Record → Record} :
    grounds.regime.Governs (fun present => Throughout property present ∧
        ∃ old, present.foreign.find? id = some old ∧ property { change old with id := old.id } ∧
          Allowed grounds present.disk present.foreign old { change old with id := old.id })
      (Step.updateForeign id change) fun record present =>
        present.foreign.find? id = some record ∧ Throughout property present := by
  refine .updateForeign fun before holds known => ?_
  obtain ⟨here, old, found, fits, allowed⟩ := known
  rw [Catalog.id_of_find? found] at fits allowed
  let changed : Record := { change old with id := id }
  have within : ∀ other, before.foreign.find? changed.id = some other → other.Within changed := by
    intro other foundOther
    rw [← Option.some.inj (found.symm.trans foundOther)]
    exact allowed.within
  have isThere := Catalog.find?_put_same before.foreign changed
  refine ⟨old, found, fun same => ?_, fun written disk persisted => ?_⟩
  · have upheld := holds.1.foreign.put within allowed.borne
    refine ⟨⟨⟨holds.1.grounded, upheld, holds.1.external, holds.1.stored⟩, fun saving => ?_⟩,
      ⟨.refl _, Catalog.grows_put within⟩, isThere, throughout_put here fits⟩
    have unchanged : before.foreign.put changed = before.foreign := by
      have isOld : changed = old := allowed.same saving same
      unfold Catalog.put
      rw [isOld, Ordered.put_of_mem holds.1.foreign.sorted (Catalog.mem_of_find? found)]
    have saved := holds.2 saving
    refine ⟨?_, saved.external, saved.sorted, saved.exported⟩
    simp only [changed] at unchanged
    simp only [unchanged]
    exact saved.foreign
  · exact (regime_put firm holds within allowed.borne persisted).telling fun _ _ _ =>
      ⟨isThere, throughout_put here fits⟩

/-- A record may be changed when the stage knows enough about it. -/
theorem governs_change {change : Record → Record} :
    grounds.regime.Governs (fun present => ∃ old, present.foreign.find? id = some old ∧
        Allowed grounds present.disk present.foreign old { change old with id := old.id })
      (Step.updateForeign id change) fun _ _ => True := by
  refine (governs_update firm fun _ => True).weaken (fun present _ here => ?_) fun _ _ _ _ => trivial
  obtain ⟨old, found, allowed⟩ := here
  exact ⟨fun _ _ => trivial, old, found, trivial, allowed⟩

/-! ## Exported objects -/

theorem regime_putExternal {record : Record} {present : Workspace} {next : Disk}
    (holds : grounds.regime.holds present) (exported : grounds.saving → Exported grounds record)
    {outcome : Except Failure Unit}
    (ran : (present.external.put record).persist present.disk = (outcome, next)) :
    grounds.regime.Ends present (fun _ _ => True) outcome
      { present with external := present.external.put record, disk := next } := by
  have path : (present.external.put record).path = grounds.externalPath := holds.1.external
  obtain ⟨onward, steady⟩ := holds.1.persistExternal firm path ran
  cases outcome with
  | error failure => exact fun _ => steady
  | ok value =>
    refine ⟨⟨steady, fun saving => ?_⟩, ⟨onward, .refl _⟩, trivial⟩
    have saved := holds.2 saving
    have known : Catalogs.externalFile ∈ catalogNames := List.mem_cons_of_mem _ List.mem_cons_self
    refine ⟨saved.foreign.persist_other firm saving holds.1.grounded known (by decide) path ran,
      held_persist firm holds.1.grounded known path ran, Catalog.sorted_put saved.sorted, ?_⟩
    intro other member
    rcases Ordered.mem_of_mem_put member with same | before
    · rw [same]
      exact exported saving
    · exact saved.exported other before

theorem governs_addExternal (said : Catalog → Prop) :
    grounds.regime.Governs (fun present => said present.foreign) (Step.addExternal id)
      fun record present => said present.foreign ∧ present.external.find? id = some record := by
  refine .addExternal (fun _ _ here record found => ⟨here, found⟩)
    fun before holds here missing written disk persisted => ?_
  have exported : grounds.saving → Exported grounds (.ofId id) :=
    fun _ => ⟨by simp [Record.ofId], rfl, rfl, rfl⟩
  exact (regime_putExternal firm holds exported persisted).telling fun _ _ _ =>
    ⟨here, Catalog.find?_put_same before.external (.ofId id)⟩

/-- An object may be exported with a source of the project. -/
theorem governs_export (said : Catalog → Prop) {file : Path} {version : String}
    (isLocal : grounds.saving → grounds.Local file) :
    grounds.regime.Governs (fun present => said present.foreign ∧
        ∃ old, present.external.find? id = some old)
      (Step.updateExternal id (asExported file version)) fun _ present => said present.foreign := by
  refine .updateExternal fun before holds known => ?_
  obtain ⟨here, old, found⟩ := known
  let changed : Record := { asExported file version old with id := id }
  have exported : grounds.saving → Exported grounds changed := by
    intro saving
    have before := (holds.2 saving).exported old (Catalog.mem_of_find? found)
    refine ⟨fun path member => ?_, before.xmir, before.optimized, before.discoveredAt⟩
    rw [← Option.some.inj (Option.mem_def.1 member)]
    exact isLocal saving
  refine ⟨old, found, fun same => ?_, fun written disk persisted => ?_⟩
  · refine ⟨⟨⟨holds.1.grounded, holds.1.foreign, holds.1.external, holds.1.stored⟩,
      fun saving => ?_⟩, ⟨.refl _, .refl _⟩, here⟩
    have saved := holds.2 saving
    have isOld : changed = old := (exported saving).eq_of_same
      (saved.exported old (Catalog.mem_of_find? found)) same
    have unchanged : before.external.put changed = before.external := by
      unfold Catalog.put
      rw [isOld, Ordered.put_of_mem saved.sorted (Catalog.mem_of_find? found)]
    simp only [changed] at unchanged
    simp only [unchanged]
    exact ⟨saved.foreign, saved.external, saved.sorted, saved.exported⟩
  · exact (regime_putExternal firm holds exported persisted).telling fun _ _ _ => here

/-! ## Files -/

theorem governs_write (beside : Beside grounds path) (text : String) (spared : Location → Prop)
    (apart : ¬spared (path.goal grounds.current)) :
    grounds.regime.Governs (fun present => Unread grounds path present.disk ∧
        ∀ location, spared location → Grounds.Vacant present.disk location)
      (Step.write path text) fun _ present => present.disk.exists? path = true ∧
        ∀ location, spared location → Grounds.Vacant present.disk location := by
  refine .write fun before holds told outcome disk ran => ?_
  obtain ⟨unread, vacant⟩ := told
  have still : path.EndsInName → grounds.regime.holds { before with disk := disk } ∧
      grounds.regime.later before { before with disk := disk } ∧
      ∀ location, spared location → Grounds.Vacant disk location := by
    intro ends
    have touches := Document.touches_writeBelow holds.1.grounded.sound ends ran
    obtain ⟨onward, grounded, stored⟩ := beside.touch firm holds unread ends ran
    have steady : Steady grounds { before with disk := disk } :=
      ⟨grounded, holds.1.foreign.onward onward, holds.1.external, stored⟩
    rw [holds.1.grounded.current] at touches
    refine ⟨⟨steady, fun saving => ?_⟩, ⟨onward, .refl _⟩, fun location spare content stands => ?_⟩
    · have saved := holds.2 saving
      have free : ∀ file ∈ catalogFiles,
          grounds.spot file ∉ [path.goal grounds.current] ∧
            grounds.spot file ∉ ([] : List Location) ∧
              grounds.spot file ∉ path.way grounds.current :=
        fun file member => ⟨by simpa using Ne.symm (beside.apart file member), by simp,
          (beside.clear saving).2 file member⟩
      have names : ∀ known ∈ catalogNames, ∀ name ∈ [known, known ++ ".tmp"], name ∈ catalogFiles := by
        decide
      exact ⟨saved.foreign.touch touches fun name member =>
          free name (names _ List.mem_cons_self name member),
        saved.external.touch touches fun name member =>
          free name (names _ (List.mem_cons_of_mem _ List.mem_cons_self) name member),
        saved.sorted, saved.exported⟩
    · have unwritten : location ∉ [path.goal grounds.current] := by
        rw [List.mem_singleton]
        intro same
        rw [same] at spare
        exact apart spare
      exact vacant location spare content (touches.file_before unwritten (by simp) stands)
  cases outcome with
  | error failure => exact fun strict => (still (beside.ends strict)).1.1
  | ok value =>
    obtain ⟨ends, passable, _, stands⟩ := Document.writeBelow_ok holds.1.grounded.sound ran
    obtain ⟨steady, later, spare⟩ := still ends
    refine ⟨steady, later, ?_, spare⟩
    have current : disk.current = before.disk.current :=
      steady.1.grounded.current.trans holds.1.grounded.current.symm
    rw [← current] at stands
    exact Disk.exists?_iff.2 ⟨_, (Disk.entry_of_name ends passable).trans stands⟩

theorem governs_save (beside : Beside grounds path) (document : Document)
    (spared : Location → Prop) (apart : ¬spared (path.goal grounds.current)) :
    grounds.regime.Governs (fun present => Unread grounds path present.disk ∧
        ∀ location, spared location → Grounds.Vacant present.disk location)
      (Step.save document path) fun _ present => present.disk.exists? path = true ∧
        ∀ location, spared location → Grounds.Vacant present.disk location :=
  .save (fun text _ => governs_write firm beside text spared apart)
    fun _ _ _ holds _ => stops_of_holds holds

/-! ## The outside -/

/-- Fetching changes files of the store at most. -/
theorem governs_fetch (store : remote.KeepsTo grounds.own) (named : remote.KeepsNames)
    {name : String} :
    grounds.regime.Governs (fun _ => True) (Step.fetch remote name) fun _ _ => True := by
  refine Regime.governs_of_ends fun before holds _ outcome after ran => ?_
  obtain ⟨_, rfl⟩ := Prod.mk.inj ran
  obtain ⟨sound, current, outside⟩ := store name before.disk holds.1.grounded.sound
  have onward := onward_of_own firm holds.1.grounded.current current outside
  have free : ∀ file, ¬grounds.own (grounds.spot file) := fun file owned =>
    (firm.ownTarget _ owned).1 (List.prefix_append _ [file])
  have steady : Steady grounds { before with
      disk := (remote.fetch name before.disk).2
      journal := before.journal ++ [.source name] } := by
    refine ⟨⟨sound, named name before.disk holds.1.grounded.named, current.trans
      holds.1.grounded.current⟩, holds.1.foreign.onward onward, holds.1.external,
      holds.1.stored.onward onward fun content stands => ?_⟩
    rw [goal_catalogPath] at stands ⊢
    exact (outside _ (free Catalogs.foreignFile)).symm.trans stands
  cases outcome with
  | error failure => exact fun _ => steady
  | ok text =>
    refine ⟨⟨steady, fun saving => ?_⟩, ⟨onward, .refl _⟩, trivial⟩
    have saved := holds.2 saving
    exact ⟨saved.foreign.own firm holds.1.grounded.current current outside,
      saved.external.own firm holds.1.grounded.current current outside, saved.sorted,
      saved.exported⟩

end Rules

end EoAssembly.Build
