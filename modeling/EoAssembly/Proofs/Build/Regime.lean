import EoAssembly.Proofs.Build.Step
import EoAssembly.Proofs.Catalog.Persist

/-!
Contract: reasoning about steps that may stop.

A regime says what holds of a workspace while a build works on it, how a workspace
relates to a later one, and what holds where the build stops.  A regime governs a step
when the step keeps to it from every workspace with a precondition, and what the step
yields has a postcondition.

Owns `Regime`, `Regime.Governs`, and a rule for each way to compose steps and for each operation
on documents and catalogs.

Does not own: the regimes of builds.
-/

namespace EoAssembly

/-- What holds of a workspace while a build works on it, how it relates to later ones, and
what holds where the build stops. -/
structure Regime where
  holds : Workspace → Prop
  later : Workspace → Workspace → Prop
  stopped : Workspace → Prop
  refl : ∀ {present : Workspace}, holds present → later present present
  trans : ∀ {first second third : Workspace}, later first second → later second third →
    later first third

namespace Regime

universe u

variable {α β : Type} {regime : Regime} {pre other : Workspace → Prop}

/-- From where a precondition holds, a step keeps to a regime: what it yields has a
postcondition, and it stops as the regime says. -/
def Governs (regime : Regime) (pre : Workspace → Prop) (step : Step α)
    (post : α → Workspace → Prop) : Prop :=
  ∀ before, regime.holds before → pre before →
    (∀ value after, step.Yields before value after →
      regime.holds after ∧ regime.later before after ∧ post value after) ∧
    ∀ failure after, step.perform before = (.error failure, after) → regime.stopped after

/-- What an outcome of a step leaves: a later workspace with a postcondition, or a stop. -/
def Ends (regime : Regime) (before : Workspace) (post : α → Workspace → Prop) :
    Except Failure α → Workspace → Prop
  | .ok value, after => regime.holds after ∧ regime.later before after ∧ post value after
  | .error _, after => regime.stopped after

section Ends

variable {before after : Workspace} {outcome : Except Failure α} {post more : α → Workspace → Prop}

theorem Ends.map {put : α → β} {last : β → Workspace → Prop}
    (ends : regime.Ends before (fun value => last (put value)) outcome after) :
    regime.Ends before last (outcome.map put) after := by
  cases outcome with
  | ok value => exact ends
  | error failure => exact ends

theorem Ends.telling (ends : regime.Ends before post outcome after)
    (told : ∀ value, outcome = .ok value → post value after → more value after) :
    regime.Ends before more outcome after := by
  cases outcome with
  | ok value => exact ⟨ends.1, ends.2.1, told value rfl ends.2.2⟩
  | error failure => exact ends

/-- An object that is known is left as it is, and another one is put and persisted, in whatever
part of the workspace the catalog is. -/
theorem Ends.add {id : String} {catalog last : Catalog} {disk next : Disk}
    {there : Record → Workspace → Prop} {outcome : Except Failure Record}
    (set : Catalog → Disk → Workspace) (added : catalog.add id disk = (outcome, last, next))
    (known : ∀ record, catalog.find? id = some record →
      regime.Ends before there (.ok record) (set catalog disk))
    (put : catalog.find? id = none → ∀ written next,
      (catalog.put (.ofId id)).persist disk = (written, next) →
      regime.Ends before (fun _ => there (.ofId id)) written (set (catalog.put (.ofId id)) next)) :
    regime.Ends before there outcome (set last next) := by
  rcases Catalog.add_any added with ⟨record, found, rfl, rfl, rfl⟩ |
    ⟨missing, rfl, written, persisted, rfl⟩
  · exact known record found
  · exact (put missing written next persisted).map

/-- A changed record is put, and persisted unless it counts as the same. -/
theorem Ends.update {id : String} {change : Record → Record} {old : Record}
    {catalog last : Catalog} {disk next : Disk} {there : Record → Workspace → Prop}
    {outcome : Except Failure Record} (set : Catalog → Disk → Workspace)
    (found : catalog.find? id = some old)
    (updated : catalog.update id change disk = (outcome, last, next))
    (idle : Record.same { change old with id := id } old = true →
      regime.Ends before there (.ok { change old with id := id })
        (set (catalog.put { change old with id := id }) disk))
    (put : ∀ written next,
      (catalog.put { change old with id := id }).persist disk = (written, next) →
      regime.Ends before (fun _ => there { change old with id := id }) written
        (set (catalog.put { change old with id := id }) next)) :
    regime.Ends before there outcome (set last next) := by
  obtain ⟨rfl, ⟨same, rfl, rfl⟩ | ⟨_, written, persisted, rfl⟩⟩ := Catalog.update_any found updated
  · exact idle same
  · exact (put written next persisted).map

/-- A step is governed by what each of its outcomes leaves. -/
theorem governs_of_ends {step : Step α}
    (ends : ∀ before, regime.holds before → pre before → ∀ outcome after,
      step.perform before = (outcome, after) → regime.Ends before post outcome after) :
    regime.Governs pre step post :=
  fun before holds here =>
    ⟨fun value after ran => ends before holds here (.ok value) after ran,
      fun failure after ran => ends before holds here (.error failure) after ran⟩

theorem Governs.ends {step : Step α} (governs : regime.Governs pre step post)
    (holds : regime.holds before) (here : pre before)
    (ran : step.perform before = (outcome, after)) : regime.Ends before post outcome after := by
  cases outcome with
  | ok value => exact (governs before holds here).1 value after ran
  | error failure => exact (governs before holds here).2 failure after ran

end Ends

/-- A property that later workspaces keep. -/
def Stable (regime : Regime) (property : Workspace → Prop) : Prop :=
  ∀ before after, regime.later before after → property before → property after

theorem stable_const (known : Prop) : regime.Stable fun _ => known := fun _ _ _ here => here

theorem Stable.and {property : Workspace → Prop} (first : regime.Stable property)
    (second : regime.Stable other) : regime.Stable fun present => property present ∧ other present :=
  fun before after moved here => ⟨first before after moved here.1, second before after moved here.2⟩

theorem Stable.all {ι : Sort u} {property : ι → Workspace → Prop}
    (each : ∀ index, regime.Stable (property index)) :
    regime.Stable fun present => ∀ index, property index present :=
  fun before after moved here index => each index before after moved (here index)

namespace Governs

variable {step : Step α} {next : α → Step β} {post middle : α → Workspace → Prop}
  {last : β → Workspace → Prop}

/-- A regime that governs a step from some workspaces governs it from fewer, with less said. -/
theorem weaken {weaker : α → Workspace → Prop} (governs : regime.Governs pre step post)
    (stronger : ∀ present, regime.holds present → other present → pre present)
    (less : ∀ value present, regime.holds present → post value present → weaker value present) :
    regime.Governs other step weaker := by
  intro before holds here
  obtain ⟨yields, stops⟩ := governs before holds (stronger before holds here)
  refine ⟨fun value after ran => ?_, stops⟩
  obtain ⟨still, moved, told⟩ := yields value after ran
  exact ⟨still, moved, less value after still told⟩

theorem from_ (governs : regime.Governs pre step post)
    (stronger : ∀ present, regime.holds present → other present → pre present) :
    regime.Governs other step post :=
  governs.weaken stronger fun _ _ _ told => told

/-- What is known of the workspace that a step starts from may be used to govern it. -/
theorem start (governs : ∀ start, regime.holds start → pre start →
      regime.Governs (fun present => present = start) step post) : regime.Governs pre step post :=
  fun before holds here => governs before holds here before holds rfl

theorem telling {weaker : α → Workspace → Prop} (governs : regime.Governs pre step post)
    (less : ∀ value present, regime.holds present → post value present → weaker value present) :
    regime.Governs pre step weaker :=
  governs.weaken (fun _ _ here => here) less

/-- What later workspaces keep holds at the end of a step as at its start. -/
theorem keep (governs : regime.Governs pre step post) (stable : regime.Stable other) :
    regime.Governs (fun present => pre present ∧ other present) step
      fun value present => post value present ∧ other present := by
  intro before holds here
  obtain ⟨yields, stops⟩ := governs before holds here.1
  refine ⟨fun value after ran => ?_, stops⟩
  obtain ⟨still, moved, told⟩ := yields value after ran
  exact ⟨still, moved, told, stable before after moved here.2⟩

/-- A step that asks for nothing keeps what later workspaces keep. -/
theorem keeping (governs : regime.Governs (fun _ => True) step fun _ _ => True)
    (stable : regime.Stable other) : regime.Governs other step fun _ present => other present :=
  (governs.keep stable).weaken (fun _ _ here => ⟨trivial, here⟩) fun _ _ _ told => told.2

/-- What a step needs may be taken for granted when its precondition says so. -/
theorem given {known : Prop} (governs : known → regime.Governs pre step post)
    (told : ∀ present, regime.holds present → pre present → known) :
    regime.Governs pre step post :=
  fun before holds here => governs (told before holds here) before holds here

theorem pure {value : α} (told : ∀ present, regime.holds present → pre present → post value present) :
    regime.Governs pre (Pure.pure value : Step α) post := by
  refine governs_of_ends fun before holds here outcome after ran => ?_
  obtain ⟨rfl, rfl⟩ := Prod.mk.inj ran
  exact ⟨holds, regime.refl holds, told before holds here⟩

theorem look {view : Workspace → α}
    (told : ∀ present, regime.holds present → pre present → post (view present) present) :
    regime.Governs pre (Step.look view) post := by
  refine governs_of_ends fun before holds here outcome after ran => ?_
  obtain ⟨rfl, rfl⟩ := Prod.mk.inj ran
  exact ⟨holds, regime.refl holds, told before holds here⟩

theorem ofOutcome {outcome : Except Failure α}
    (succeeds : ∀ value, outcome = .ok value → ∀ present, regime.holds present → pre present →
      post value present)
    (fails : ∀ failure, outcome = .error failure → ∀ present, regime.holds present → pre present →
      regime.stopped present) :
    regime.Governs pre (Step.ofOutcome outcome) post := by
  refine governs_of_ends fun before holds here answer after ran => ?_
  obtain ⟨same, rfl⟩ := Prod.mk.inj ran
  cases answer with
  | ok value => exact ⟨holds, regime.refl holds, succeeds value same before holds here⟩
  | error failure => exact fails failure same before holds here

theorem fail {failure : Failure}
    (stops : ∀ present, regime.holds present → pre present → regime.stopped present) :
    regime.Governs pre (Step.fail failure : Step α) post :=
  ofOutcome (fun _ wrong => absurd wrong (by simp)) fun _ _ => stops

/-- Steps one after the other are governed when each is, the second from where the first ends. -/
theorem bind (first : regime.Governs pre step middle)
    (second : ∀ value, regime.Governs (middle value) (next value) last) :
    regime.Governs pre (step >>= next) last := by
  refine governs_of_ends fun before holds here outcome after ran => ?_
  obtain ⟨yields, stops⟩ := first before holds here
  rcases Step.ends_bind ran with ⟨failure, failed, rfl⟩ | ⟨value, between, ranFirst, ranSecond⟩
  · exact stops failure after failed
  · obtain ⟨still, moved, told⟩ := yields value between ranFirst
    have ends := (second value).ends still told ranSecond
    cases outcome with
    | ok result => exact ⟨ends.1, regime.trans moved ends.2.1, ends.2.2⟩
    | error failure => exact ends

theorem ite {condition : Prop} [Decidable condition] {second : Step α}
    (whenTrue : condition → regime.Governs pre step post)
    (whenFalse : ¬condition → regime.Governs pre second post) :
    regime.Governs pre (if condition then step else second) post := by
  split
  · next here => exact whenTrue here
  · next other => exact whenFalse other

section Documents

variable {path : Path} {text : String} {document : Document}

theorem load {read : Document → Workspace → Prop}
    (succeeds : ∀ present, regime.holds present → pre present → ∀ document,
      Document.load present.disk path = .ok document → read document present)
    (fails : ∀ present, regime.holds present → pre present → ∀ failure,
      Document.load present.disk path = .error failure → regime.stopped present) :
    regime.Governs pre (Step.load path) read := by
  refine governs_of_ends fun before holds here outcome after ran => ?_
  obtain ⟨loads, rfl⟩ := Prod.mk.inj ran
  cases outcome with
  | ok document => exact ⟨holds, regime.refl holds, succeeds before holds here document loads⟩
  | error failure => exact fails before holds here failure loads

variable {wrote : Unit → Workspace → Prop}

theorem write
    (ends : ∀ before, regime.holds before → pre before → ∀ outcome disk,
      Document.writeBelow before.disk path text = (outcome, disk) →
      regime.Ends before wrote outcome { before with disk := disk }) :
    regime.Governs pre (Step.write path text) wrote := by
  refine governs_of_ends fun before holds here outcome after ran => ?_
  obtain ⟨disk, written, rfl⟩ := Step.perform_onDisk ran
  exact ends before holds here outcome disk written

/-- Saving a document is writing its text, if it has one. -/
theorem save
    (writes : ∀ text, document.render = .ok text → regime.Governs pre (Step.write path text) wrote)
    (fails : ∀ failure, document.render = .error failure → ∀ present, regime.holds present →
      pre present → regime.stopped present) :
    regime.Governs pre (Step.save document path) wrote := by
  refine governs_of_ends fun before holds here outcome after ran => ?_
  cases render : document.render with
  | error failure =>
    have same : Step.perform (Step.save document path) before = (.error failure, before) := by
      unfold Step.save Step.onDisk Document.save
      rw [Step.perform_ofAction, render]
    obtain ⟨rfl, rfl⟩ := Prod.mk.inj (same.symm.trans ran)
    exact fails failure render before holds here
  | ok text =>
    have same : Step.perform (Step.save document path) before =
        Step.perform (Step.write path text) before := by
      unfold Step.save Step.write Step.onDisk Document.save
      rw [Step.perform_ofAction, Step.perform_ofAction, render]
    exact (writes text render).ends holds here (same.symm.trans ran)

end Documents

section Catalogs

variable {id : String} {change : Record → Record} {there : Record → Workspace → Prop}

theorem addForeign
    (known : ∀ before, regime.holds before → pre before → ∀ record,
      before.foreign.find? id = some record → there record before)
    (put : ∀ before, regime.holds before → pre before → before.foreign.find? id = none →
      ∀ written disk, (before.foreign.put (.ofId id)).persist before.disk = (written, disk) →
        regime.Ends before (fun _ => there (.ofId id)) written
          { before with foreign := before.foreign.put (.ofId id), disk := disk }) :
    regime.Governs pre (Step.addForeign id) there := by
  refine governs_of_ends fun before holds here outcome after ran => ?_
  obtain ⟨catalog, disk, added, rfl⟩ := Step.perform_addForeign ran
  exact Ends.add (fun catalog disk => { before with foreign := catalog, disk := disk }) added
    (fun record found => ⟨holds, regime.refl holds, known before holds here record found⟩)
    (put before holds here)

theorem addExternal
    (known : ∀ before, regime.holds before → pre before → ∀ record,
      before.external.find? id = some record → there record before)
    (put : ∀ before, regime.holds before → pre before → before.external.find? id = none →
      ∀ written disk, (before.external.put (.ofId id)).persist before.disk = (written, disk) →
        regime.Ends before (fun _ => there (.ofId id)) written
          { before with external := before.external.put (.ofId id), disk := disk }) :
    regime.Governs pre (Step.addExternal id) there := by
  refine governs_of_ends fun before holds here outcome after ran => ?_
  obtain ⟨catalog, disk, added, rfl⟩ := Step.perform_addExternal ran
  exact Ends.add (fun catalog disk => { before with external := catalog, disk := disk }) added
    (fun record found => ⟨holds, regime.refl holds, known before holds here record found⟩)
    (put before holds here)

theorem updateForeign
    (edits : ∀ before, regime.holds before → pre before →
      ∃ old, before.foreign.find? id = some old ∧
        (Record.same { change old with id := id } old = true →
          regime.Ends before there (.ok { change old with id := id })
            { before with foreign := before.foreign.put { change old with id := id } }) ∧
        ∀ written disk, (before.foreign.put { change old with id := id }).persist before.disk =
            (written, disk) →
          regime.Ends before (fun _ => there { change old with id := id }) written
            { before with
              foreign := before.foreign.put { change old with id := id }, disk := disk }) :
    regime.Governs pre (Step.updateForeign id change) there := by
  refine governs_of_ends fun before holds here outcome after ran => ?_
  obtain ⟨old, found, idle, put⟩ := edits before holds here
  obtain ⟨catalog, disk, updated, rfl⟩ := Step.perform_updateForeign ran
  exact Ends.update (fun catalog disk => { before with foreign := catalog, disk := disk }) found
    updated idle put

theorem updateExternal
    (edits : ∀ before, regime.holds before → pre before →
      ∃ old, before.external.find? id = some old ∧
        (Record.same { change old with id := id } old = true →
          regime.Ends before there (.ok { change old with id := id })
            { before with external := before.external.put { change old with id := id } }) ∧
        ∀ written disk, (before.external.put { change old with id := id }).persist before.disk =
            (written, disk) →
          regime.Ends before (fun _ => there { change old with id := id }) written
            { before with
              external := before.external.put { change old with id := id }, disk := disk }) :
    regime.Governs pre (Step.updateExternal id change) there := by
  refine governs_of_ends fun before holds here outcome after ran => ?_
  obtain ⟨old, found, idle, put⟩ := edits before holds here
  obtain ⟨catalog, disk, updated, rfl⟩ := Step.perform_updateExternal ran
  exact Ends.update (fun catalog disk => { before with external := catalog, disk := disk }) found
    updated idle put

end Catalogs

/-- Where a regime allows no stop, what it governs yields. -/
theorem yields (governs : regime.Governs pre step post) (never : ∀ present, ¬regime.stopped present)
    {before : Workspace} (holds : regime.holds before) (here : pre before) :
    ∃ value after, step.Yields before value after ∧ regime.holds after ∧
      regime.later before after ∧ post value after := by
  obtain ⟨yields, stops⟩ := governs before holds here
  cases outcome : step.perform before with
  | mk result after =>
    cases result with
    | error failure => exact absurd (stops failure after outcome) (never after)
    | ok value => exact ⟨value, after, outcome, yields value after outcome⟩

end Governs

end Regime

end EoAssembly
