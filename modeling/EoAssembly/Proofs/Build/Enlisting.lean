import EoAssembly.Proofs.Build.Complete
import EoAssembly.Proofs.Build.References

/-!
Contract: what registering makes of the catalogs, whatever they hold.

Every object of a selected file gets a new record from its old one, or from a fresh one.
Where several files have one name, the last of them counts.

Owns `Enlisted`, which describes a run over files, and that registering is such a run.
-/

namespace EoAssembly.Build

variable {settings : Settings} {remote : Remote} {before between after : Workspace} {file : Path}
  {files : List Path} {id : String}

/-! ## One catalog -/

/-- The record of an object, or a fresh one. -/
def recordOf (catalog : Catalog) (id : String) : Record := (catalog.find? id).getD (.ofId id)

theorem recordOf_found {catalog : Catalog} {record : Record} (found : catalog.find? id = some record) :
    recordOf catalog id = record := by
  unfold recordOf
  rw [found]
  rfl

/-- What files make of the records of one catalog: the last file of a name changes its record. -/
def Noted (change : Path → Record → Record) (files : List Path) (before after : Catalog) : Prop :=
  ∀ id, after.find? id = (lastNamed files id).elim (before.find? id)
    fun file => some (change file (recordOf before id))

namespace Noted

variable {change : Path → Record → Record} {first second third : Catalog}

theorem nil (catalog : Catalog) : Noted change [] catalog catalog := fun _ => rfl

/-- A later change of a record leaves nothing of an earlier one. -/
theorem cons (absorbs : ∀ one other record, change one (change other record) = change one record)
    (head : Noted change [file] first second) (tail : Noted change files second third) :
    Noted change (file :: files) first third := by
  intro id
  have split : lastNamed (file :: files) id = (lastNamed files id).or (lastNamed [file] id) := by
    unfold lastNamed
    rw [← List.singleton_append, List.filter_append, List.getLast?_append]
  rw [tail id, split]
  cases later : lastNamed files id with
  | none => exact head id
  | some other =>
    show some (change other (recordOf second id)) = some (change other (recordOf first id))
    unfold recordOf
    rw [head id]
    cases lastNamed [file] id with
    | none => rfl
    | some one => exact congrArg some (absorbs other one _)

end Noted

theorem lastNamed_single (file : Path) (id : String) :
    lastNamed [file] id = if idOf file = id then some file else none := lastNamed_concat [] file id

theorem asExported_absorbs (version : String) (one other : Path) (record : Record) :
    asExported one version (asExported other version record) = asExported one version record := by
  unfold asExported
  split <;> rfl

/-- Adding the record of a file and changing it notes the file. -/
theorem Noted.one {change : Path → Record → Record} {catalog added updated : Catalog}
    {disk next last : Disk} {old record : Record}
    (keepsId : ∀ record, (change file record).id = record.id)
    (ranAdd : catalog.add (idOf file) disk = (.ok old, added, next))
    (ranUpdate : added.update (idOf file) (change file) next = (.ok record, updated, last)) :
    Noted change [file] catalog updated := by
  obtain ⟨present, found, changed, sameId, isPut, _⟩ := Catalog.update_ok ranUpdate
  have others : ∀ id, id ≠ idOf file → added.find? id = catalog.find? id := by
    intro id different
    rcases Catalog.add_ok ranAdd with ⟨_, same, _⟩ | ⟨_, _, same, _⟩
    · rw [same]
    · rw [same]
      exact Catalog.find?_put_other _ (Ne.symm different)
  have isPresent : present = recordOf catalog (idOf file) := by
    unfold recordOf
    rcases Catalog.add_ok ranAdd with ⟨_, same, _⟩ | ⟨missing, _, same, _⟩
    · rw [← same, found]
      rfl
    · have fresh := Catalog.find?_put_same catalog (.ofId (idOf file))
      rw [same] at found
      rw [missing]
      exact Option.some.inj (found.symm.trans fresh)
  intro id
  rw [lastNamed_single, isPut]
  by_cases here : idOf file = id
  · rw [if_pos here, ← here, ← sameId, Catalog.find?_put_same]
    show some record = some (change file (recordOf catalog record.id))
    rw [sameId, ← isPresent, changed, ← keepsId present]
  · rw [if_neg here, Catalog.find?_put_other _ (by rw [sameId]; exact here)]
    exact others id (Ne.symm here)

/-! ## One file -/

/-- What a run over files does: it changes catalogs and the disk, and asks for nothing. -/
structure Enlisted (settings : Settings) (files : List Path) (before after : Workspace) : Prop where
  foreign : Noted (fun file => asRegistered (settings.sources.join file)) files before.foreign
    after.foreign
  external : if settings.withVersions then
      Noted (fun file => asExported (settings.sources.join file) settings.project.version) files
        before.external after.external
    else after.external = before.external
  frame : ∃ disk foreign external,
    after = { before with disk := disk, foreign := foreign, external := external }

theorem enlisted_nil (settings : Settings) (before : Workspace) :
    Enlisted settings [] before before where
  foreign := .nil _
  external := by
    split
    · exact .nil _
    · rfl
  frame := ⟨_, _, _, rfl⟩

theorem Enlisted.cons (head : Enlisted settings [file] before between)
    (tail : Enlisted settings files between after) : Enlisted settings (file :: files) before after where
  foreign := head.foreign.cons (fun _ _ _ => rfl) tail.foreign
  external := by
    have first := head.external
    have rest := tail.external
    split
    · next versions =>
      rw [if_pos versions] at first rest
      exact first.cons (fun _ _ _ => asExported_absorbs _ _ _ _) rest
    · next versions =>
      rw [if_neg versions] at first rest
      exact rest.trans first
  frame := by
    obtain ⟨_, _, _, rfl⟩ := head.frame
    obtain ⟨disk, foreign, external, same⟩ := tail.frame
    exact ⟨disk, foreign, external, same⟩

theorem registerFile_enlists (ran : (registerFile settings file).Yields before () after) :
    Enlisted settings [file] before after := by
  have registered := (yields_registerFile.1 ran).2
  simp only [Step.yields_addForeign, Step.yields_updateForeign, Step.yields_addExternal,
    Step.yields_updateExternal] at registered
  obtain ⟨_, _, _, _, ⟨_, _, added, rfl⟩, ⟨_, _, updated, rfl⟩, rest⟩ := registered
  have foreign : Noted (fun file => asRegistered (settings.sources.join file)) [file] _ _ :=
    .one (fun _ => rfl) added updated
  rcases rest with ⟨versions, _, _, _, ⟨_, _, addedOut, rfl⟩, ⟨_, _, updatedOut, rfl⟩⟩ |
    ⟨versions, rfl⟩
  · refine ⟨foreign, ?_, ⟨_, _, _, rfl⟩⟩
    rw [if_pos versions]
    exact .one (fun _ => rfl) addedOut updatedOut
  · refine ⟨foreign, ?_, ⟨_, _, _, rfl⟩⟩
    rw [if_neg versions]

/-! ## All files -/

theorem registerFiles_enlists (ran : (registerFiles settings files).Yields before () after) :
    Enlisted settings files before after := by
  induction files generalizing before with
  | nil =>
    rw [(Step.yields_pure.1 ran).2]
    exact enlisted_nil settings after
  | cons file rest inductionHypothesis =>
    obtain ⟨_, between, ranFirst, ranRest⟩ := Step.yields_bind.1 ran
    exact (registerFile_enlists ranFirst).cons (inductionHypothesis ranRest)

/-- Where names are to be strict, registering refuses files with other names. -/
theorem registerFiles_check (strict : settings.strictNames = true)
    (ran : (registerFiles settings files).Yields before () after) :
    ∀ file ∈ files, checkName file = .ok () := by
  induction files generalizing before with
  | nil => simp
  | cons file rest inductionHypothesis =>
    obtain ⟨_, between, ranFirst, ranRest⟩ := Step.yields_bind.1 ran
    exact List.forall_mem_cons.2
      ⟨(yields_registerFile.1 ranFirst).1 strict, inductionHypothesis ranRest⟩

/-- Registering is a run over the files that the patterns of the project select. -/
theorem register_enlists {count : Nat} (ran : (register settings).Yields before count after) :
    Enlisted settings (registeredFiles settings before.disk) before after :=
  registerFiles_enlists (yields_register.1 ran).2.2.2.2

/-! ## Whole builds -/

/-- An assembly by the catalogs that it opens. -/
theorem yields_assemble_opened {answer : Assembly} :
    (assemble settings remote).Yields before answer after ↔ ∃ foreign external registered,
      Catalog.openAt before.disk (catalogPath settings.target) = .ok foreign ∧
      Catalog.openAt before.disk (settings.target.child Catalogs.externalFile) = .ok external ∧
      (register settings).Yields { before with foreign := foreign, external := external }
        answer.registered registered ∧
      (settle settings remote settings.maxCycles).Yields registered (answer.cycles, answer.pulled)
        after ∧
      answer.objects = after.foreign.size := by
  rw [yields_assemble]
  constructor
  · rintro ⟨opened, registered, ranOpen, ranRegister, ranSettle, isSize⟩
    obtain ⟨foreign, external, rfl, openedForeign, openedExternal⟩ := yields_reopen.1 ranOpen
    exact ⟨foreign, external, registered, openedForeign, openedExternal, ranRegister, ranSettle,
      isSize⟩
  · rintro ⟨foreign, external, registered, openedForeign, openedExternal, ranRegister, ranSettle,
      isSize⟩
    exact ⟨_, registered, yields_reopen.2 ⟨foreign, external, rfl, openedForeign, openedExternal⟩,
      ranRegister, ranSettle, isSize⟩

/-- An assembly that opens the catalogs it has in memory. -/
theorem assemble_opened {registered : Workspace} {count cycles pulled : Nat}
    (openedForeign : Catalog.openAt before.disk (catalogPath settings.target) = .ok before.foreign)
    (openedExternal : Catalog.openAt before.disk (settings.target.child Catalogs.externalFile) =
      .ok before.external)
    (ranRegister : (register settings).Yields before count registered)
    (ranSettle : (settle settings remote settings.maxCycles).Yields registered (cycles, pulled)
      after) :
    (assemble settings remote).Yields before ⟨count, cycles, pulled, after.foreign.size⟩ after :=
  yields_assemble_opened.2 ⟨_, _, registered, openedForeign, openedExternal, ranRegister, ranSettle, rfl⟩

/-- Before the cycles, the records of an assembly are those it opened, with the files noted. -/
theorem assemble_enlists {answer : Assembly}
    (ran : (assemble settings remote).Yields before answer after) :
    ∃ foreign external registered,
      Catalog.openAt before.disk (catalogPath settings.target) = .ok foreign ∧
      Enlisted settings (registeredFiles settings before.disk)
        { before with foreign := foreign, external := external } registered ∧
      (settle settings remote settings.maxCycles).Yields registered (answer.cycles, answer.pulled)
        after := by
  obtain ⟨foreign, external, registered, openedForeign, _, ranRegister, ranSettle, _⟩ :=
    yields_assemble_opened.1 ran
  exact ⟨foreign, external, registered, openedForeign, register_enlists ranRegister, ranSettle⟩

end EoAssembly.Build
