import EoAssembly.Proofs.Catalog.Persist

/-!
Contract: one call that changes a catalog, whatever becomes of its file.

A call gives its id a record.  When the catalog holds the same record already
nothing is written; otherwise the file takes the new records in one step, or the
call fails and the file stays as it was, while the record is in memory in any case.

Owns `Record.Same`, records that a file can hold, `Edit`, and what an edit comes to.

Does not own: sequences of edits.
-/

namespace EoAssembly

namespace Path

theorem names_extended (name : String) : Names (name ++ ".tmp") := by
  have long : 4 ≤ (name ++ ".tmp").toList.length := by simp
  have different : ∀ short : String, short.toList.length < 4 → name ++ ".tmp" ≠ short := by
    intro short few same
    rw [same] at long
    omega
  refine names_iff.2 ⟨?_, different ".." (by decide)⟩
  unfold silent
  rw [Bool.or_eq_false_iff, beq_eq_false_iff_ne, beq_eq_false_iff_ne]
  exact ⟨different "" (by decide), different "." (by decide)⟩

end Path

namespace Record

variable {left right third : Record}

/-- Two records agree in everything, where paths agree by their components. -/
def Same (left right : Record) : Prop := left.same right = true

instance (left right : Record) : Decidable (left.Same right) :=
  inferInstanceAs (Decidable (_ = true))

theorem same_iff : left.Same right ↔
    left.id = right.id ∧ componentsOf left.source = componentsOf right.source ∧
      componentsOf left.xmir = componentsOf right.xmir ∧
      componentsOf left.optimized = componentsOf right.optimized ∧
      componentsOf left.discoveredAt = componentsOf right.discoveredAt ∧
      left.discovered = right.discovered ∧ left.pulled = right.pulled ∧
      left.version = right.version ∧ left.hash = right.hash ∧ left.status = right.status := by
  unfold Same same
  simp only [Bool.and_eq_true, beq_iff_eq, and_assoc]

theorem Same.refl (record : Record) : record.Same record := by
  simp [same_iff]

theorem Same.symm (same : left.Same right) : right.Same left := by
  obtain ⟨id, source, xmir, optimized, at_, discovered, pulled, version, hash, status⟩ :=
    same_iff.1 same
  exact same_iff.2 ⟨id.symm, source.symm, xmir.symm, optimized.symm, at_.symm, discovered.symm,
    pulled.symm, version.symm, hash.symm, status.symm⟩

theorem Same.trans (first : left.Same right) (second : right.Same third) : left.Same third := by
  rw [same_iff] at *
  simp_all

theorem Same.id (same : left.Same right) : left.id = right.id := (same_iff.1 same).1

theorem rel_trans {first second last : Option Record} (here : Option.Rel Same first second)
    (there : Option.Rel Same second last) : Option.Rel Same first last := by
  cases here with
  | none => exact there
  | some same =>
    cases there with
    | some other => exact .some (same.trans other)

/-! ## Records that a file can hold -/

/-- A record reads back from a catalog file as it is. -/
structure Storable (record : Record) : Prop where
  textual : record.Textual
  countable : record.Countable

theorem storable_ofId (id : String) : (ofId id).Storable where
  textual := ⟨by simp [ofId], by simp [ofId], by simp [ofId], by simp [ofId]⟩
  countable := by simp [Countable, ofId]

theorem Storable.withId {record : Record} (storable : record.Storable) (id : String) :
    Storable { record with id := id } where
  textual := ⟨storable.textual.source, storable.textual.xmir, storable.textual.optimized,
    storable.textual.discoveredAt⟩
  countable := storable.countable

/-- A field that was read leaves a record that a file can hold. -/
theorem storable_withField? {record next : Record} {name : String} {value : Json.Value}
    (storable : record.Storable) (read : record.withField? name value = some next) :
    next.Storable := by
  obtain ⟨⟨source, xmir, optimized, discoveredAt⟩, countable⟩ := storable
  have written : ∀ (texts : Option String), ∀ path ∈ texts.map Path.ofText, path.IsText := by
    intro texts path member
    obtain ⟨text, _, same⟩ := Option.map_eq_some_iff.1 member
    rw [← same]
    exact Path.isText_ofText text
  unfold withField? at read
  split at read
  case h_6 =>
    obtain ⟨count, isCount, same⟩ := Option.map_eq_some_iff.1 read
    rw [← same]
    refine ⟨⟨source, xmir, optimized, discoveredAt⟩, fun number member => ?_⟩
    have numbered : count = some number := member
    unfold Json.Value.optionalNat? at isCount
    split at isCount
    · rw [numbered] at isCount
      exact absurd isCount (by simp)
    · next literal =>
      obtain ⟨found, natural, here⟩ := Option.map_eq_some_iff.1 isCount
      unfold Json.Value.natural? at natural
      split at natural
      · next bounded =>
        rw [numbered, Option.some.injEq] at here
        rw [← here, ← Option.some.inj natural]
        exact bounded.2
      · exact absurd natural (by simp)
    · exact absurd isCount (by simp)
  case h_11 =>
    rw [← Option.some.inj read]
    exact ⟨⟨source, xmir, optimized, discoveredAt⟩, countable⟩
  all_goals
    obtain ⟨texts, _, same⟩ := Option.map_eq_some_iff.1 read
    rw [← same]
    refine ⟨⟨?_, ?_, ?_, ?_⟩, countable⟩ <;> first | exact written texts | assumption

theorem storable_withFields? {members : List (String × Json.Value)} {record next : Record}
    (storable : record.Storable) (read : record.withFields? members = some next) :
    next.Storable := by
  induction members generalizing record with
  | nil =>
    rw [← Option.some.inj read]
    exact storable
  | cons member rest inductionHypothesis =>
    obtain ⟨between, first, others⟩ := Option.bind_eq_some_iff.1 read
    exact inductionHypothesis (storable_withField? storable first) others

theorem storable_ofJson? {value : Json.Value} {record : Record} (read : ofJson? value = some record) :
    record.Storable := by
  unfold ofJson? at read
  split at read
  · split at read
    · exact storable_withFields? (storable_ofId "") read
    · exact absurd read (by simp)
  · split at read
    · exact absurd read (by simp)
    · exact storable_withFields? (storable_ofId "") read
  · exact absurd read (by simp)

/-- Whatever was read from a catalog file can be written to one. -/
theorem storable_allOfText? {text : String} {records : List Record}
    (read : allOfText? text = some records) : ∀ record ∈ records, record.Storable := by
  have listed : ∀ (values : List Json.Value) (found : List Record),
      listOfJson? values = some found → ∀ record ∈ found, record.Storable := by
    intro values
    induction values with
    | nil =>
      intro found is
      rw [← Option.some.inj is]
      simp
    | cons value rest inductionHypothesis =>
      intro found is
      unfold listOfJson? at is
      split at is
      · next record others first behind =>
        rw [← Option.some.inj is]
        exact List.forall_mem_cons.2 ⟨storable_ofJson? first, inductionHypothesis others behind⟩
      · exact absurd is (by simp)
  unfold allOfText? at read
  split at read
  · next values _ => exact listed values records read
  · exact absurd read (by simp)

end Record

namespace Catalog

open Disk (Touches)

variable {catalog after stored : Catalog} {disk next : Disk} {path : Path} {record : Record}
  {id : String}

/-! ## Catalogs with the same records -/

/-- Two catalogs hold the same records, where paths agree by their components. -/
def Alike (left right : Catalog) : Prop := List.Forall₂ Record.Same left.records right.records

theorem Alike.refl (catalog : Catalog) : catalog.Alike catalog :=
  List.forall₂_same.2 fun record _ => Record.Same.refl record

theorem Alike.symm {left right : Catalog} (alike : left.Alike right) : right.Alike left :=
  List.Forall₂.flip (List.Forall₂.imp (fun _ _ same => Record.Same.symm same) alike)

theorem Alike.trans {left right third : Catalog} (first : left.Alike right)
    (second : right.Alike third) : left.Alike third :=
  Ordered.related_trans Record.Same Record.Same.trans first second

theorem Alike.find? {left right : Catalog} (alike : left.Alike right) (id : String) :
    Option.Rel Record.Same (left.find? id) (right.find? id) := by
  show Option.Rel Record.Same (Ordered.find? Record.id id left.records)
    (Ordered.find? Record.id id right.records)
  exact Ordered.related_find? Record.Same Record.Same.id alike id

/-- A record in place of one that is the same changes nothing. -/
theorem alike_put {before : Record} (sorted : catalog.Sorted)
    (found : catalog.find? record.id = some before) (same : record.Same before) :
    (catalog.put record).Alike catalog :=
  Ordered.related_put Record.Same Record.Same.refl sorted found same

theorem put_of_find? (sorted : catalog.Sorted) (found : catalog.find? id = some record) :
    catalog.put record = catalog := by
  unfold put
  rw [Ordered.put_of_mem sorted (mem_of_find? found)]

/-- The records are in order and a file can hold them. -/
structure Fit (catalog : Catalog) : Prop where
  sorted : catalog.Sorted
  storable : ∀ record ∈ catalog.records, record.Storable

theorem Fit.put (fit : catalog.Fit) (storable : record.Storable) : (catalog.put record).Fit where
  sorted := sorted_put fit.sorted
  storable := by
    intro other member
    rcases Ordered.mem_of_mem_put member with here | before
    · rw [here]
      exact storable
    · exact fit.storable other before

theorem fit_openAt (opened : openAt disk path = .ok catalog) : catalog.Fit := by
  refine ⟨(openAt_ok opened).2.1, ?_⟩
  unfold openAt at opened
  split at opened
  · split at opened
    · exact absurd opened (by simp)
    · split at opened
      · next records read =>
        rw [← Except.ok.inj opened]
        intro record member
        exact Record.storable_allOfText? read record (Ordered.mem_of_mem_ofList member)
      · exact absurd opened (by simp)
  · rw [← Except.ok.inj opened]
    simp

theorem openAt_congr {first second : Disk} (same : second.entry? path = first.entry? path) :
    openAt second path = openAt first path := by
  unfold openAt
  rw [Disk.exists?_congr same, Disk.readText_congr same]

/-! ## The file of a catalog -/

/-- Where a catalog file can be: its path is a text that ends in a name, and no directory on
the way is in the place of the file. -/
structure Housed (path : Path) (current : Location) : Prop where
  written : path.IsText
  ends : path.EndsInName
  apart : path.goal current ∉ path.above current

/-- The sibling of a catalog file is another file. -/
theorem sibling_apart (written : catalog.path.IsText) (ends : catalog.path.EndsInName)
    (current : Location) : catalog.sibling.goal current ≠ catalog.path.goal current := by
  obtain ⟨before, name, split, plain⟩ := ends
  have isPath : catalog.path = ⟨before ++ [name]⟩ := by
    rw [← split]
  have isSibling : catalog.sibling = ⟨before ++ [name ++ ".tmp"]⟩ :=
    Path.extended_of_name written split (by simp)
  have behind : ∀ last : String, Path.Names last →
      (⟨before ++ [last]⟩ : Path).goal current =
        (⟨before ++ [""]⟩ : Path).goal current ++ [last] := by
    intro last plain
    have components : (⟨before ++ [last]⟩ : Path).components =
        (⟨before ++ [""]⟩ : Path).components ++ [last].map Path.Component.named :=
      Path.components_last plain
    exact Path.goal_of_names current components
  rw [isPath, isSibling, behind name plain, behind _ (Path.names_extended name)]
  intro same
  have names := List.singleton_inj.1 (List.append_cancel_left same)
  have lengths := congrArg (fun text : String => text.toList.length) names
  simp at lengths

/-- A catalog that was written opens as it is. -/
theorem openAt_persisted (sound : disk.Sound) (fit : catalog.Fit) (written : catalog.path.IsText)
    (ran : catalog.persist disk = (.ok (), next)) : openAt next catalog.path = .ok catalog := by
  obtain ⟨passable, touches⟩ := persist_ok sound ran
  have ends := persist_endsInName ran
  have stands := (persist_stands sound (sibling_apart written ends _) ran).1
  refine openAt_stands fit.sorted (fun record member => (fit.storable record member).textual)
    (fun record member => (fit.storable record member).countable) ?_
  rw [Disk.entry_of_name ends passable, touches.current]
  exact stands

/-- A catalog that could not be written leaves its file as it was. -/
theorem persist_refused (sound : disk.Sound) (housed : Housed catalog.path disk.current)
    {failure : Failure} (ran : catalog.persist disk = (.error failure, next)) :
    next.entryAt? (catalog.path.goal disk.current) =
      disk.entryAt? (catalog.path.goal disk.current) := by
  obtain ⟨written, ends, apart⟩ := housed
  rw [ends.above_eq] at apart
  exact (persist_failed sound ran).untouched
    (by simpa using Ne.symm (sibling_apart written ends disk.current)) (by simp) apart

/-! ## Edits -/

/-- A change of a record, which makes of a record that a file can hold one again. -/
structure Change where
  apply : Record → Record
  storable : ∀ record : Record, record.Storable → (apply record).Storable

/-- A call that may change a catalog. -/
inductive Edit where
  | add (id : String)
  | update (id : String) (change : Change)

namespace Edit

variable {edit : Edit} {outcome : Except Failure Record}

/-- The id of the record that an edit is about. -/
def subject : Edit → String
  | .add id => id
  | .update id _ => id

/-- What an edit answers, the catalog in memory afterwards, and the disk. -/
def perform (edit : Edit) (catalog : Catalog) (disk : Disk) :
    Except Failure Record × Catalog × Disk :=
  match edit with
  | .add id => catalog.add id disk
  | .update id change => catalog.update id change.apply disk

/-- The record that an edit gives its id. -/
def record? (edit : Edit) (catalog : Catalog) : Option Record :=
  match edit with
  | .add id => some ((catalog.find? id).getD (.ofId id))
  | .update id change =>
    (catalog.find? id).map fun before => { change.apply before with id := id }

/-- The catalog that an edit writes: none when the record is the same as before. -/
def target? (edit : Edit) (catalog : Catalog) : Option Catalog :=
  match edit.record? catalog with
  | none => none
  | some record =>
    if (catalog.find? edit.subject).any record.same then none else some (catalog.put record)

theorem subject_record? {record : Record} (given : edit.record? catalog = some record) :
    record.id = edit.subject := by
  cases edit with
  | add id =>
    rw [← Option.some.inj given]
    cases found : catalog.find? id with
    | none => rfl
    | some before => exact id_of_find? found
  | update id change =>
    obtain ⟨before, _, same⟩ := Option.map_eq_some_iff.1 given
    rw [← same]
    rfl

theorem storable_record? {record : Record} (fit : catalog.Fit)
    (given : edit.record? catalog = some record) : record.Storable := by
  cases edit with
  | add id =>
    rw [← Option.some.inj given]
    cases found : catalog.find? id with
    | none => exact Record.storable_ofId id
    | some before => exact fit.storable before (mem_of_find? found)
  | update id change =>
    obtain ⟨before, found, same⟩ := Option.map_eq_some_iff.1 given
    rw [← same]
    exact (change.storable before (fit.storable before (mem_of_find? found))).withId id

/-- What becomes of an edit: its id is unknown, there is nothing to write, or the catalog with
its record is written or can't be written. -/
inductive Becomes (edit : Edit) (catalog : Catalog) (disk : Disk) :
    Except Failure Record → Catalog → Disk → Prop where
  | unknown (missing : catalog.find? edit.subject = none) (none_ : edit.record? catalog = none) :
      Becomes edit catalog disk (.error (.notFound edit.subject)) catalog disk
  | idle {record before : Record} (given : edit.record? catalog = some record)
      (found : catalog.find? edit.subject = some before) (same : record.Same before) :
      Becomes edit catalog disk (.ok record) (catalog.put record) disk
  | written {record : Record} {next : Disk} (given : edit.record? catalog = some record)
      (target : edit.target? catalog = some (catalog.put record))
      (ran : (catalog.put record).persist disk = (.ok (), next)) :
      Becomes edit catalog disk (.ok record) (catalog.put record) next
  | refused {record : Record} {failure : Failure} {next : Disk}
      (given : edit.record? catalog = some record)
      (target : edit.target? catalog = some (catalog.put record))
      (ran : (catalog.put record).persist disk = (.error failure, next)) :
      Becomes edit catalog disk (.error failure) (catalog.put record) next

/-- Nothing is written for a record that is the same as before. -/
theorem target?_idle {record before : Record} (given : edit.record? catalog = some record)
    (found : catalog.find? edit.subject = some before) (same : record.Same before) :
    edit.target? catalog = none := by
  have isSame : record.same before = true := same
  simp [target?, given, found, isSame]

/-- A catalog that is written or refused with its file. -/
theorem Becomes.of_persist {record : Record} {written : Except Failure Unit}
    (given : edit.record? catalog = some record)
    (target : edit.target? catalog = some (catalog.put record))
    (persisted : (catalog.put record).persist disk = (written, next)) :
    edit.Becomes catalog disk (written.map fun _ => record) (catalog.put record) next := by
  cases written with
  | ok _ => exact .written given target persisted
  | error failure => exact .refused given target persisted

theorem becomes (sorted : catalog.Sorted)
    (ran : edit.perform catalog disk = (outcome, after, next)) :
    edit.Becomes catalog disk outcome after next := by
  cases edit with
  | add id =>
    rcases add_any ran with ⟨found, known, rfl, rfl, rfl⟩ | ⟨missing, rfl, written, persisted, rfl⟩
    · have idle : Becomes (.add id) after next (.ok found) (after.put found) next :=
        .idle (by simp [record?, known]) known (Record.Same.refl found)
      rwa [put_of_find? sorted known] at idle
    · have given : record? (.add id) catalog = some (.ofId id) := by simp [record?, missing]
      exact .of_persist given (by simp [target?, given, Edit.subject, missing]) persisted
  | update id change =>
    change catalog.update id change.apply disk = _ at ran
    cases found : catalog.find? id with
    | none =>
      rw [update_missing found] at ran
      obtain ⟨rfl, rest⟩ := Prod.mk.inj ran
      obtain ⟨rfl, rfl⟩ := Prod.mk.inj rest
      exact .unknown found (by simp [record?, found])
    | some before =>
      have given : record? (.update id change) catalog =
          some { change.apply before with id := id } := by simp [record?, found]
      obtain ⟨rfl, ⟨same, rfl, rfl⟩ | ⟨different, written, persisted, rfl⟩⟩ := update_any found ran
      · exact .idle given found same
      · exact .of_persist given (by simp [target?, given, Edit.subject, found, different]) persisted

theorem path_target? {target : Catalog} (isTarget : edit.target? catalog = some target) :
    target.path = catalog.path := by
  unfold target? at isTarget
  split at isTarget
  · exact absurd isTarget (by simp)
  · split at isTarget
    · exact absurd isTarget (by simp)
    · rw [← Option.some.inj isTarget]
      rfl

/-- The disk behind an edit that writes is the one behind the write. -/
theorem disk_written {target : Catalog} {written : Disk} {wrote : Except Failure Unit}
    (became : edit.Becomes catalog disk outcome after next)
    (isTarget : edit.target? catalog = some target)
    (ran : target.persist disk = (wrote, written)) : next = written := by
  cases became with
  | unknown _ none_ => exact absurd isTarget (by simp [target?, none_])
  | idle given found same =>
    rw [target?_idle given found same] at isTarget
    exact absurd isTarget (by simp)
  | written _ target persisted =>
    rw [← Option.some.inj (target.symm.trans isTarget), persisted] at ran
    exact (Prod.mk.inj ran).2
  | refused _ target persisted =>
    rw [← Option.some.inj (target.symm.trans isTarget), persisted] at ran
    exact (Prod.mk.inj ran).2

end Edit

end Catalog

end EoAssembly
