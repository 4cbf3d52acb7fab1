import EoAssembly.Proofs.Build.Attempts
import EoAssembly.Proofs.Build.Deriving
import EoAssembly.Proofs.Build.Marking
import Mathlib.Data.List.Forall2

/-!
Contract: optimizing, with the documents taken in any order.

The documents that wait are attempted one beside the other.  When all attempts succeeded their
answers are collected in the order of the catalog and recorded; when one failed, some documents
may not have been attempted, and nothing is recorded.  In an orderly project all schedules come to
the same, a failure leaves all records as they are, and finished documents are never touched.

Owns `Execution` with its laws, and the chains of executions that end in failures.

Does not own: interleaved writes of two attempts.
-/

namespace EoAssembly.Build

open Disk (Touches)

variable {target path : Path} {id : String} {item : String × Path} {count : Nat}
  {start begun between after last : Workspace} {order done : List (String × Path)}
  {answers others : List ((String × Path) × Except Failure Path)} {outcome : Except Failure Nat}

/-! ## Executions -/

/-- What executing comes to when the documents are attempted in some order: the answers of the
attempts, the outcome, and the workspace that is left. -/
inductive Execution (target : Path) (start : Workspace) :
    List ((String × Path) × Except Failure Path) → Except Failure Nat → Workspace → Prop
  | recorded {order done : List (String × Path)} {answers : List _} {outcome : Except Failure Nat}
      {between after : Workspace} (all : order.Perm (unoptimized start.foreign))
      (attempted : attemptEach target order start = (answers, between))
      (collected : List.Forall₂
        (fun item answer => answer.1 = item.1 ∧ (item, .ok answer.2) ∈ answers)
        (unoptimized start.foreign) done)
      (ran : (recordOptimized done >>= fun _ => pure done.length).perform between =
        (outcome, after)) : Execution target start answers outcome after
  | stopped {order left : List (String × Path)} {answers : List _} {item : String × Path}
      {failure : Failure} {after : Workspace}
      (split : (order ++ left).Perm (unoptimized start.foreign))
      (attempted : attemptEach target order start = (answers, after))
      (failed : (item, .error failure) ∈ answers) :
      Execution target start answers (.error failure) after

theorem distinct_of_perm (orderly : Orderly target start.foreign start.disk)
    (all : order.Perm (unoptimized start.foreign)) : (order.map Prod.fst).Nodup :=
  (all.map Prod.fst).nodup_iff.2 (Site.nodup_unoptimized orderly.sorted)

/-- A document has one answer. -/
theorem attemptEach_unique {first second : Except Failure Path}
    (distinct : (order.map Prod.fst).Nodup)
    (ran : attemptEach target order start = (answers, after))
    (one : (item, first) ∈ answers) (other : (item, second) ∈ answers) : first = second := by
  have items := attemptEach_items ran
  have distinctItems : (answers.map Prod.fst).Nodup := by
    rw [items]
    exact distinct.of_map
  exact (Prod.mk.inj (List.inj_on_of_nodup_map distinctItems one other rfl)).2

theorem mem_of_collected {pending : List (String × Path)}
    (collected : List.Forall₂
      (fun item answer => answer.1 = item.1 ∧ (item, .ok answer.2) ∈ answers) pending done)
    (waits : item ∈ pending) : ∃ place, (item, .ok place) ∈ answers := by
  induction collected with
  | nil => exact absurd waits (by simp)
  | cons here _ inductionHypothesis =>
    rcases List.mem_cons.1 waits with rfl | later
    · exact ⟨_, here.2⟩
    · exact inductionHypothesis later

/-- Answers are collected once all attempts succeeded, and are the places of optimized forms. -/
theorem collected_placed (orderly : Orderly target start.foreign start.disk)
    (all : order.Perm (unoptimized start.foreign))
    (attempted : attemptEach target order start = (answers, between))
    (collected : List.Forall₂
      (fun item answer => answer.1 = item.1 ∧ (item, .ok answer.2) ∈ answers)
      (unoptimized start.foreign) done) :
    done = placed target (unoptimized start.foreign) ∧
      (optimizeEach target order).Yields start (placed target order) between := by
  have waits : ∀ item ∈ order, item ∈ unoptimized start.foreign := fun item => all.mem_iff.1
  have distinct := distinct_of_perm orderly all
  constructor
  · have each : List.Forall₂ (fun item answer => (item.1, optimizedPlace target item.1) = answer)
        (unoptimized start.foreign) done := by
      apply collected.imp
      rintro item ⟨name, place⟩ ⟨same, answered⟩
      simp only at same answered
      rw [same, (attemptEach_due orderly waits attempted distinct answered).1]
    have same := List.forall₂_map_left_iff.2 each
    rw [List.forall₂_eq_eq_eq] at same
    exact same.symm
  · apply attemptEach_yields attempted
    rintro ⟨item, answer⟩ member
    have among : item ∈ order := by
      rw [← attemptEach_items attempted]
      exact List.mem_map_of_mem member
    obtain ⟨place, answered⟩ := mem_of_collected collected (waits item among)
    exact ⟨place, attemptEach_unique distinct attempted member answered⟩

/-- Recording and counting come to what recording comes to. -/
theorem perform_counted {number : Nat}
    (ran : (recordOptimized done >>= fun _ => pure number).perform between = (outcome, after)) :
    ∃ answer, (recordOptimized done).perform between = (answer, after) ∧
      ∀ counted, outcome = .ok counted → answer = .ok () ∧ counted = number := by
  obtain ⟨answer, performed, rfl⟩ := Step.ends_map ran
  refine ⟨answer, performed, fun counted isOk => ?_⟩
  cases answer with
  | error failure => exact absurd isOk (by simp [Except.map])
  | ok value => exact ⟨rfl, (Except.ok.inj isOk).symm⟩

namespace Execution

variable (orderly : Orderly target start.foreign start.disk)

include orderly

/-- Every execution attempts some documents that wait, and then changes records at most. -/
theorem parts (ran : Execution target start answers outcome after) :
    ∃ order between, (∀ item ∈ order, item ∈ unoptimized start.foreign) ∧
      attemptEach target order start = (answers, between) ∧ KeepsObjects between after := by
  have keeps : ∀ {order : List (String × Path)} {between : Workspace},
      (∀ item ∈ order, item ∈ unoptimized start.foreign) →
        attemptEach target order start = (answers, between) →
          between.foreign.Sorted ∧ between.disk.Sound := by
    intro order between waits attempted
    have alters := attemptEach_alters orderly waits attempted
    rw [alters.rest]
    exact ⟨orderly.sorted, alters.touches.sound⟩
  cases ran with
  | recorded all attempted collected ran =>
    have waits : ∀ item ∈ _, item ∈ unoptimized start.foreign := fun item => all.mem_iff.1
    obtain ⟨sorted, sound⟩ := keeps waits attempted
    obtain ⟨answer, recording, _⟩ := perform_counted ran
    exact ⟨_, _, waits, attempted, recordOptimized_keepsObjects sorted sound recording⟩
  | stopped split attempted failed =>
    have waits : ∀ item ∈ _, item ∈ unoptimized start.foreign :=
      fun item member => split.mem_iff.1 (List.mem_append_left _ member)
    obtain ⟨sorted, sound⟩ := keeps waits attempted
    exact ⟨_, _, waits, attempted, .refl sorted sound⟩

/-! ## Success -/

/-- An execution that succeeds attempted all documents with success and recorded them. -/
theorem succeeds (ran : Execution target start answers (.ok count) after) :
    ∃ order between, order.Perm (unoptimized start.foreign) ∧
      (optimizeEach target order).Yields start (placed target order) between ∧
        (recordOptimized (placed target (unoptimized start.foreign))).Yields between () after ∧
          count = (unoptimized start.foreign).length := by
  cases ran with
  | recorded all attempted collected ran =>
    obtain ⟨rfl, ranEach⟩ := collected_placed orderly all attempted collected
    obtain ⟨answer, recording, counts⟩ := perform_counted ran
    obtain ⟨rfl, rfl⟩ := counts count rfl
    exact ⟨_, _, all, ranEach, recording, by simp [placed]⟩

/-- What succeeds once succeeds in every order where no failure is forced, to the same end. -/
theorem every_order (ran : Execution target start answers (.ok count) after)
    (perm : order.Perm (unoptimized start.foreign)) (foreign : begun.foreign = start.foreign)
    (alike : start.disk.Alike begun.disk) (calm : begun.disk.Calm) :
    ∃ middle final, (optimizeEach target order).Yields begun (placed target order) middle ∧
      (recordOptimized (placed target (unoptimized start.foreign))).Yields middle () final ∧
        final.foreign = after.foreign ∧ after.disk.Alike final.disk := by
  obtain ⟨orderThere, between, permThere, ranEach, recording, _⟩ := ran.succeeds orderly
  have waits : ∀ item ∈ orderThere, item ∈ unoptimized start.foreign :=
    fun item => permThere.mem_iff.1
  obtain ⟨middle, ranMiddle, alikeMiddle, calmMiddle⟩ := optimizeEach_perm
    (permThere.trans perm.symm) orderly waits (distinct_of_perm orderly permThere) ranEach alike
    calm
  have sameForeign : middle.foreign = between.foreign := by
    rw [(optimizeEach_frame ranMiddle).2, (optimizeEach_frame ranEach).2]
    exact foreign
  obtain ⟨final, ranFinal, sameFinal, alikeFinal⟩ :=
    recordOptimized_alike recording sameForeign alikeMiddle calmMiddle
  exact ⟨middle, final, ranMiddle, ranFinal, sameFinal, alikeFinal⟩

theorem external_kept (ran : Execution target start answers outcome after) :
    after.external = start.external := by
  obtain ⟨order, between, waits, attempted, keeps⟩ := ran.parts orderly
  rw [keeps.external, (attemptEach_alters orderly waits attempted).rest]

end Execution

/-- Two workspaces with the same catalogs and the same entries on their disks. -/
structure SameResult (first second : Workspace) : Prop where
  foreign : second.foreign = first.foreign
  external : second.external = first.external
  disk : first.disk.Alike second.disk

namespace Execution

variable (orderly : Orderly target start.foreign start.disk)

include orderly

/-- Executions that succeed come to the same. -/
theorem agree {number : Nat} (ran : Execution target start answers (.ok count) after)
    (again : Execution target start others (.ok number) last) :
    number = count ∧ SameResult after last := by
  have alike := Disk.alike_calmed start.disk
  have calm : start.disk.calmed.Calm := rfl
  obtain ⟨_, _, _, _, _, isCount⟩ := ran.succeeds orderly
  obtain ⟨_, _, _, _, _, isNumber⟩ := again.succeeds orderly
  -- Both come to what one execution comes to that is forced no failure.
  obtain ⟨middle, final, ranMiddle, ranFinal, same, alikeFinal⟩ := @every_order target count start
    { start with disk := start.disk.calmed } after _ _ orderly ran (.refl _) rfl alike calm
  obtain ⟨middleTwin, finalTwin, ranMiddleTwin, ranFinalTwin, sameTwin, alikeTwin⟩ :=
    @every_order target number start { start with disk := start.disk.calmed } last _ _ orderly again
      (.refl _) rfl alike calm
  obtain ⟨_, rfl⟩ := ranMiddle.unique ranMiddleTwin
  obtain ⟨_, rfl⟩ := ranFinal.unique ranFinalTwin
  refine ⟨isNumber.trans isCount.symm, sameTwin.symm.trans same, ?_,
    alikeFinal.trans alikeTwin.symm⟩
  exact (again.external_kept orderly).trans (ran.external_kept orderly).symm

/-- Where no failure is forced, all executions come to what one comes to that succeeds. -/
theorem agree_calm (ran : Execution target start answers (.ok count) after)
    (calm : start.disk.Calm) (again : Execution target start others outcome last) :
    ∃ number, outcome = .ok number := by
  cases again with
  | recorded all attempted collected ranLast =>
    obtain ⟨rfl, ranEach⟩ := collected_placed orderly all attempted collected
    obtain ⟨middle, final, ranMiddle, ranFinal, _⟩ :=
      ran.every_order orderly all rfl (.refl start.disk) calm
    obtain ⟨_, rfl⟩ := ranEach.unique ranMiddle
    have counted : (recordOptimized (placed target (unoptimized start.foreign)) >>= fun _ =>
        pure (placed target (unoptimized start.foreign)).length).Yields _ _ _ :=
      Step.yields_bind.2 ⟨(), final, ranFinal, Step.yields_pure.2 ⟨rfl, rfl⟩⟩
    exact ⟨_, (Prod.mk.inj (ranLast.symm.trans counted)).1⟩
  | stopped split attempted failed =>
    -- The documents that were attempted are the first ones of an order of all of them.
    obtain ⟨middle, final, ranMiddle, _⟩ :=
      ran.every_order orderly split rfl (.refl start.disk) calm
    obtain ⟨between, ranFront⟩ := optimizeEach_front ranMiddle
    rw [attemptEach_of_yields ranFront] at attempted
    rw [← (Prod.mk.inj attempted).1] at failed
    exact absurd failed (by simp)

end Execution

/-- What optimizing every document that waits comes to: the records of these are marked and no
others, and the catalog file holds the records. -/
structure Optimizes (target : Path) (start : Workspace) (count : Nat) (after : Workspace) :
    Prop where
  count : count = (unoptimized start.foreign).length
  records : ∀ id, after.foreign.find? id =
    (start.foreign.find? id).map (optimizedRecord target)
  path : after.foreign.path = start.foreign.path
  external : after.external = start.external
  file : unoptimized start.foreign ≠ [] →
    after.disk.entryAt? (start.foreign.path.goal start.disk.current) =
      some (.file (.text after.foreign.render))

/-! ## Failure -/

/-- A document that has no optimized form and can't be loaded, passed or serialized, or whose
attempt failed otherwise. -/
def Fails (target : Path) (disk : Disk) (answers : List ((String × Path) × Except Failure Path))
    (item : String × Path) : Prop :=
  (∃ failure, filesDue target disk item = .error failure) ∨
    ∃ failure, (item, .error failure) ∈ answers

/-- Neither the records in memory nor those in the catalog file changed. -/
structure Unrecorded (before after : Workspace) : Prop where
  foreign : after.foreign = before.foreign
  external : after.external = before.external
  file : ∀ content, after.disk.entryAt? (before.foreign.path.goal before.disk.current) =
    some (.file content) ↔ before.disk.entryAt? (before.foreign.path.goal before.disk.current) =
      some (.file content)

namespace Execution

variable (orderly : Orderly target start.foreign start.disk)

include orderly

theorem optimizes (ran : Execution target start answers (.ok count) after) :
    Optimizes target start count after := by
  obtain ⟨order, between, perm, ranEach, recording, isCount⟩ := ran.succeeds orderly
  have frame := (optimizeEach_frame ranEach).2
  have waits : ∀ item ∈ order, item ∈ unoptimized start.foreign := fun item => perm.mem_iff.1
  have touches := (attemptEach_alters orderly waits (attemptEach_of_yields ranEach)).touches
  have foreign : between.foreign = start.foreign := by rw [frame]
  have sorted : between.foreign.Sorted := foreign ▸ orderly.sorted
  have isText : between.foreign.path.IsText := foreign ▸ orderly.isText
  have awaits : ∀ item ∈ unoptimized start.foreign, ∃ record,
      between.foreign.find? item.1 = some record ∧ record.optimized = none := by
    intro item member
    obtain ⟨record, found, isNone, _⟩ := (unoptimized_iff orderly.sorted).1 member
    exact ⟨record, foreign ▸ found, isNone⟩
  obtain ⟨marks, holds⟩ := recordOptimized_holds sorted touches.sound isText awaits
    (Site.nodup_unoptimized orderly.sorted) recording
  have keeps := recordOptimized_keepsObjects sorted touches.sound recording
  rw [foreign, touches.current] at holds
  refine ⟨isCount, fun id => ?_, ?_, ran.external_kept orderly, holds⟩
  · rw [marks id, foreign]
    cases found : start.foreign.find? id with
    | none => rfl
    | some record =>
      have isId := Catalog.id_of_find? found
      rw [Option.map_some, Option.map_some]
      unfold optimizedRecord
      have same : id ∈ (unoptimized start.foreign).map Prod.fst ↔
          (awaitsOptimize record).isSome = true := by
        constructor
        · intro member
          obtain ⟨item, waiting, rfl⟩ := List.mem_map.1 member
          obtain ⟨old, foundOld, isNone, isXmir⟩ := (unoptimized_iff orderly.sorted).1 waiting
          rw [found] at foundOld
          obtain rfl := Option.some.inj foundOld
          simp [awaitsOptimize, isNone, isXmir]
        · intro some_
          obtain ⟨item, waiting⟩ := Option.isSome_iff_exists.1 some_
          have member : item ∈ unoptimized start.foreign :=
            List.mem_filterMap.2 ⟨record, Catalog.mem_of_find? found, waiting⟩
          have isItem : item.1 = id := by
            unfold awaitsOptimize at waiting
            split at waiting
            · obtain ⟨xmir, _, rfl⟩ := Option.map_eq_some_iff.1 waiting
              exact isId
            · exact absurd waiting (by simp)
          exact isItem ▸ List.mem_map_of_mem member
      simp only [same, isId]
  · rw [keeps.path, foreign]

/-- A document that fails makes the whole of it fail: nothing is recorded, and the optimized form
of the document stays missing. -/
theorem fails (ran : Execution target start answers outcome after)
    (waits : item ∈ unoptimized start.foreign) (fail : Fails target start.disk answers item) :
    (∃ failure, outcome = .error failure) ∧ Unrecorded start after ∧
      (start.disk.exists? (optimizedPlace target item.1) = false →
        after.disk.exists? (optimizedPlace target item.1) = false) := by
  -- No attempt at a document that fails succeeded.
  have unanswered : ∀ {order : List (String × Path)} {between : Workspace} {place : Path},
      (∀ item ∈ order, item ∈ unoptimized start.foreign) → (order.map Prod.fst).Nodup →
        attemptEach target order start = (answers, between) → (item, .ok place) ∉ answers := by
    intro order between place waiting distinct attempted answered
    rcases fail with ⟨failure, due⟩ | ⟨failure, failed⟩
    · obtain ⟨_, files, isDue⟩ := attemptEach_due orderly waiting attempted distinct answered
      rw [due] at isDue
      exact absurd isDue (by simp)
    · exact absurd (attemptEach_unique distinct attempted answered failed) (by simp)
  cases ran with
  | recorded all attempted collected ranLast =>
    obtain ⟨place, answered⟩ := mem_of_collected collected waits
    exact absurd answered
      (unanswered (fun item => all.mem_iff.1) (distinct_of_perm orderly all) attempted)
  | @stopped order left _ _ failure _ split attempted failed =>
    have waiting : ∀ item ∈ order, item ∈ unoptimized start.foreign :=
      fun item member => split.mem_iff.1 (List.mem_append_left _ member)
    have distinct : (order.map Prod.fst).Nodup := by
      have whole := distinct_of_perm orderly split
      rw [List.map_append] at whole
      exact whole.of_append_left
    have alters := attemptEach_alters orderly waiting attempted
    refine ⟨⟨failure, rfl⟩, ⟨?_, ?_, fun content => ?_⟩, fun missing => ?_⟩
    · rw [alters.rest]
    · rw [alters.rest]
    · apply alters.touches.file_iff _ (by simp)
      intro member
      obtain ⟨path, isFile, same⟩ := List.mem_map.1 member
      obtain ⟨other, among, isPath⟩ := List.mem_flatMap.1 isFile
      exact orderly.elsewhere orderly.file (lists_of_unoptimized (waiting other among))
        (List.mem_map.2 ⟨path, isPath, same⟩)
    · apply attemptEach_missing orderly waiting attempted (lists_of_unoptimized waits) missing
      intro other place same answered
      have among : other ∈ order := by
        rw [← attemptEach_items attempted]
        exact List.mem_map_of_mem answered
      obtain rfl := List.inj_on_of_nodup_map (Site.nodup_unoptimized orderly.sorted)
        (waiting other among) waits same
      exact unanswered waiting distinct attempted answered

/-! ## Finished documents -/

/-- A project stays orderly, whatever executing comes to. -/
theorem orderly_after (ran : Execution target start answers outcome after) :
    Orderly target after.foreign after.disk := by
  obtain ⟨order, between, waits, attempted, keeps⟩ := ran.parts orderly
  have alters := attemptEach_alters orderly waits attempted
  have there : Orderly target between.foreign between.disk := by
    rw [alters.rest]
    exact orderly.later alters.touches
  exact there.kept keeps

theorem lists_iff (ran : Execution target start answers outcome after) :
    Lists after.foreign id ↔ Lists start.foreign id := by
  obtain ⟨order, between, waits, attempted, keeps⟩ := ran.parts orderly
  rw [keeps.lists id, (attemptEach_alters orderly waits attempted).rest]

/-- What is finished is touched by no execution. -/
theorem finished (ran : Execution target start answers outcome after)
    (lists : Lists start.foreign id)
    (made : start.disk.exists? (optimizedPlace target id) = true) :
    after.disk.current = start.disk.current ∧
      after.disk.exists? (optimizedPlace target id) = true ∧
        ∀ path ∈ filePaths target id, ∀ content,
          after.disk.entryAt? (path.goal start.disk.current) = some (.file content) ↔
            start.disk.entryAt? (path.goal start.disk.current) = some (.file content) := by
  obtain ⟨order, between, waits, attempted, keeps⟩ := ran.parts orderly
  have alters := attemptEach_alters orderly waits attempted
  obtain ⟨madeThere, same⟩ := attemptEach_finished orderly waits attempted lists made
  have there : Orderly target between.foreign between.disk := by
    rw [alters.rest]
    exact orderly.later alters.touches
  have listsThere : Lists between.foreign id := by
    rw [alters.rest]
    exact lists
  obtain ⟨_, touches⟩ := keeps.touches
  have apart : ∀ path ∈ filePaths target id, path.goal between.disk.current ∉
      [between.foreign.path.goal between.disk.current,
        between.foreign.sibling.goal between.disk.current] := by
    intro path isFile member
    have outside : Outside target between.disk.current (path.goal between.disk.current) := by
      rcases List.mem_cons.1 member with isFileItself | isSibling
      · exact isFileItself ▸ there.file
      · exact List.mem_singleton.1 isSibling ▸ there.sibling
    exact not_outside (there.lettered id listsThere) isFile _ outside
  have isPlace : optimizedPlace target id ∈ filePaths target id := by simp [filePaths]
  have notGone : ∀ path ∈ filePaths target id, path.goal between.disk.current ∉
      [between.foreign.sibling.goal between.disk.current] :=
    fun path isFile member => apart path isFile (List.mem_cons_of_mem _ member)
  refine ⟨touches.current.trans alters.touches.current,
    touches.exists?_stays (notGone _ isPlace) madeThere, fun path isFile content => ?_⟩
  rw [← same path isFile, ← alters.touches.current]
  exact touches.file_iff (apart path isFile) (notGone path isFile)

end Execution

/-- What may be done between two executions: anything outside of the directories of results that
leaves an orderly project with the same objects, and perhaps more. -/
structure SparesResults (target : Path) (before after : Workspace) : Prop where
  orderly : Orderly target after.foreign after.disk
  lists : ∀ id, Lists before.foreign id → Lists after.foreign id
  current : after.disk.current = before.disk.current
  results : ∀ location, ¬Outside target before.disk.current location →
    after.disk.entryAt? location = before.disk.entryAt? location

/-- Executions that ended in errors, one after the other, with mends between them. -/
inductive Repeated (target : Path) (start : Workspace) : Workspace → Prop
  | begun : Repeated target start start
  | again {between failed after : Workspace}
      {answers : List ((String × Path) × Except Failure Path)} {failure : Failure}
      (before : Repeated target start between)
      (ran : Execution target between answers (.error failure) failed)
      (mended : SparesResults target failed after) : Repeated target start after

/-- What is finished at the beginning is touched by no execution that is repeated. -/
theorem Repeated.finished (orderly : Orderly target start.foreign start.disk)
    (repeated : Repeated target start after) (lists : Lists start.foreign id)
    (made : start.disk.exists? (optimizedPlace target id) = true) :
    Orderly target after.foreign after.disk ∧ Lists after.foreign id ∧
      after.disk.current = start.disk.current ∧
        after.disk.exists? (optimizedPlace target id) = true ∧
          ∀ path ∈ filePaths target id, ∀ content,
            after.disk.entryAt? (path.goal start.disk.current) = some (.file content) ↔
              start.disk.entryAt? (path.goal start.disk.current) = some (.file content) := by
  induction repeated with
  | begun => exact ⟨orderly, lists, rfl, made, fun _ _ _ => Iff.rfl⟩
  | @again between failed after answers failure before ran mended inductionHypothesis =>
    obtain ⟨there, listsThere, current, madeThere, same⟩ := inductionHypothesis
    obtain ⟨currentFailed, madeFailed, sameFailed⟩ := ran.finished there listsThere madeThere
    have thereFailed := ran.orderly_after there
    have listsFailed := (ran.lists_iff there).2 listsThere
    have inside : ∀ path ∈ filePaths target id,
        ¬Outside target failed.disk.current (path.goal failed.disk.current) :=
      fun path isFile => not_outside (thereFailed.lettered id listsFailed) isFile _
    have isPlace : optimizedPlace target id ∈ filePaths target id := by simp [filePaths]
    have listsAfter := mended.lists id listsFailed
    refine ⟨mended.orderly, listsAfter, ?_, ?_, fun path isFile content => ?_⟩
    · exact mended.current.trans (currentFailed.trans current)
    · rw [← madeFailed]
      apply Disk.exists?_congr
      apply Disk.entry_congr mended.current
      · exact iff_of_true (mended.orderly.passable_file listsAfter isPlace)
          (thereFailed.passable_file listsFailed isPlace)
      · exact mended.results _ (inside _ isPlace)
    · have unmended := mended.results _ (inside path isFile)
      rw [currentFailed, current] at unmended
      rw [unmended, ← same path isFile content, ← current]
      exact sameFailed path isFile content

/-! ## All together -/

/-- Attempting the documents in the order of the catalog is one of the schedules. -/
theorem optimizeAll_execution (ran : (optimizeAll target).perform start = (outcome, after)) :
    ∃ answers, Execution target start answers outcome after := by
  have these : (optimizeThese target (unoptimized start.foreign)).perform start =
      (outcome, after) := ran
  unfold optimizeThese at these
  rw [Step.perform_bind] at these
  cases performed : (optimizeEach target (unoptimized start.foreign)).perform start with
  | mk answer between =>
    rw [performed] at these
    cases answer with
    | ok done =>
      have isDone := (optimizeEach_frame performed).1
      refine ⟨_, .recorded (.refl _) (attemptEach_of_yields performed) ?_ these⟩
      rw [isDone]
      unfold placed
      rw [List.forall₂_map_right_iff, List.forall₂_same]
      intro item member
      exact ⟨rfl, List.mem_map.2 ⟨item, member, rfl⟩⟩
    | error failure =>
      obtain ⟨rfl, rfl⟩ := Prod.mk.inj these
      obtain ⟨front, item, behind, answers, split, attempted, failed⟩ :=
        attemptEach_of_error performed
      have perm : (front ++ [item] ++ behind).Perm (unoptimized start.foreign) := by
        rw [split]
        simp
      exact ⟨answers, .stopped perm attempted failed⟩

/-- In an orderly project, optimizing does not depend on the order of the documents.  When it
succeeds, exactly the records that waited are marked, and every other schedule comes to the same
unless a write is forced to fail there.  When a document fails, nothing is recorded, and its
optimized form stays missing.  What is finished is never touched, also when executing is repeated
after errors.  Attempting the documents in the order of the catalog is one of the schedules. -/
theorem optimizing_scheduled (orderly : Orderly target start.foreign start.disk) :
    (∀ answers count after, Execution target start answers (.ok count) after →
      Optimizes target start count after ∧
        ∀ others outcome last, Execution target start others outcome last →
          (start.disk.Calm ∨ ∃ number, outcome = .ok number) →
            outcome = .ok count ∧ SameResult after last) ∧
      (∀ answers outcome after, Execution target start answers outcome after →
        ∀ item ∈ unoptimized start.foreign, Fails target start.disk answers item →
          (∃ failure, outcome = .error failure) ∧ Unrecorded start after ∧
            (start.disk.exists? (optimizedPlace target item.1) = false →
              after.disk.exists? (optimizedPlace target item.1) = false)) ∧
      (∀ again answers outcome after, Repeated target start again →
        Execution target again answers outcome after →
          ∀ id, Lists start.foreign id → start.disk.exists? (optimizedPlace target id) = true →
            ∀ path ∈ filePaths target id, ∀ content,
              after.disk.entryAt? (path.goal start.disk.current) = some (.file content) ↔
                start.disk.entryAt? (path.goal start.disk.current) = some (.file content)) ∧
      ∀ outcome after, (optimizeAll target).perform start = (outcome, after) →
        ∃ answers, Execution target start answers outcome after := by
  refine ⟨fun answers count after ran => ⟨ran.optimizes orderly, ?_⟩, ?_, ?_, ?_⟩
  · intro others outcome last again calmOrOk
    have succeeds : ∃ number, outcome = .ok number := by
      rcases calmOrOk with calm | isOk
      · exact ran.agree_calm orderly calm again
      · exact isOk
    obtain ⟨number, rfl⟩ := succeeds
    obtain ⟨rfl, same⟩ := ran.agree orderly again
    exact ⟨rfl, same⟩
  · intro answers outcome after ran item waits fail
    exact ran.fails orderly waits fail
  · intro again answers outcome after repeated ran id lists made path isFile content
    obtain ⟨there, listsThere, current, madeThere, same⟩ := repeated.finished orderly lists made
    obtain ⟨_, _, sameAfter⟩ := ran.finished there listsThere madeThere
    rw [← same path isFile content, ← current]
    exact sameAfter path isFile content
  · intro outcome after ran
    exact optimizeAll_execution ran

/-! ## Two documents -/

/-- A target with the optimized form of `f` and the result of its first pass, and a document that
`f` and `v` were parsed into. -/
def besideDisk : Disk :=
  ⟨[(["w"], .directory), (["w", "d"], .directory),
    (["w", "d", "a.xmir"], .file (.text
      "<program><objects><o base=\"x\" line=\"1\"/></objects></program>")),
    (["w", "t"], .directory), (["w", "t", "02-steps"], .directory),
    (["w", "t", "02-steps", "f"], .directory),
    (["w", "t", "02-steps", "f", "01-globals-to-abstracts.xml"], .file (.text "first")),
    (["w", "t", "03-optimize"], .directory),
    (["w", "t", "03-optimize", "f.xmir"], .file (.text "finished"))], ["w"], []⟩

/-- The project with the target `t` where these names wait for their optimized forms. -/
def besideStart (names : List String) : Workspace where
  disk := besideDisk
  foreign := ⟨catalogPath (.ofText "t"),
    names.map fun name => { Record.ofId name with xmir := some (.ofText "d/a.xmir") }⟩
  external := ⟨(Path.ofText "t").child Catalogs.externalFile, []⟩
  slot := .empty
  journal := []
  instant := ""

/-- What optimizing them in the order of the catalog comes to. -/
def besideRun (names : List String) : Except Failure Nat × Workspace :=
  (optimizeAll (.ofText "t")).perform (besideStart names)

theorem beside_sound : besideDisk.Sound :=
  Disk.sound_of_entries (by decide +kernel) (by decide +kernel)

theorem beside_orderly :
    Orderly (.ofText "t") (besideStart ["f", "v"]).foreign (besideStart ["f", "v"]).disk where
  sound := beside_sound
  sorted := by
    unfold Catalog.Sorted Ordered.Ascending
    decide +kernel
  passable := by
    unfold Disk.Passable
    decide +kernel
  lettered := by
    have each : ∀ record ∈ (besideStart ["f", "v"]).foreign.records,
        ObjectName.checkPlace record.id = .ok () ∧
          (ObjectName.split record.id).1.toList.any (fun c => c != '.') = true := by
      decide +kernel
    rintro id ⟨record, member, rfl⟩
    obtain ⟨passes, letter⟩ := each record member
    obtain ⟨c, inside, notDot⟩ := List.any_eq_true.1 letter
    exact ⟨passes, c, inside, bne_iff_ne.1 notDot⟩
  clear := by
    have each : ∀ record ∈ (besideStart ["f", "v"]).foreign.records,
        ∀ twin ∈ (besideStart ["f", "v"]).foreign.records,
          record.id ≠ twin.id → PlacesClear (.ofText "t") record.id twin.id := by
      unfold PlacesClear
      decide +kernel
    rintro id name ⟨record, member, rfl⟩ ⟨twin, among, rfl⟩
    exact each record member twin among
  documents := by
    unfold Disk.Passable Outside
    decide +kernel
  isText := by decide +kernel
  file := by
    unfold Outside
    decide +kernel
  sibling := by
    unfold Outside
    decide +kernel

/-- Both documents are recorded, and what was finished stays as it was. -/
theorem beside_scheduled :
    ∃ answers, Execution (.ofText "t") (besideStart ["f", "v"]) answers (.ok 2)
        (besideRun ["f", "v"]).2 ∧
      Optimizes (.ofText "t") (besideStart ["f", "v"]) 2 (besideRun ["f", "v"]).2 ∧
        (besideRun ["f", "v"]).2.disk.entryAt? ["w", "t", "03-optimize", "f.xmir"] =
          some (.file (.text "finished")) := by
  have succeeded : (besideRun ["f", "v"]).1 = .ok 2 := by decide +kernel
  have made : besideDisk.exists? (optimizedPlace (.ofText "t") "f") = true := by decide +kernel
  obtain ⟨success, _, finished, sequential⟩ := optimizing_scheduled beside_orderly
  obtain ⟨answers, ran⟩ :=
    sequential (.ok 2) (besideRun ["f", "v"]).2 (Step.yields_perform succeeded)
  have stays := finished _ answers _ _ .begun ran "f" ⟨_, List.mem_cons_self, rfl⟩ made
    (optimizedPlace (.ofText "t") "f") (by simp [filePaths]) (.text "finished")
  exact ⟨answers, ran, (success answers 2 _ ran).1, stays.2 (by decide +kernel)⟩

/-- A name with a version that leads to another directory takes files of another object, although
their places are apart: the result of a pass of a finished document is overwritten. -/
theorem finished_overwritten :
    ¬∀ (target : Path) (start after : Workspace) (outcome : Except Failure Nat),
      start.disk.Sound → start.foreign.Sorted → start.disk.Passable target →
      (∀ record ∈ start.foreign.records, (ObjectName.split record.id).1 ≠ "") →
      (∀ record ∈ start.foreign.records, ∀ twin ∈ start.foreign.records,
        record.id ≠ twin.id → PlacesClear target record.id twin.id) →
      (∀ item ∈ unoptimized start.foreign, start.disk.Passable item.2 ∧
        Outside target start.disk.current (item.2.goal start.disk.current)) →
      (optimizeAll target).perform start = (outcome, after) →
      ∀ id, Lists start.foreign id → start.disk.exists? (optimizedPlace target id) = true →
        ∀ path ∈ filePaths target id, ∀ content,
          after.disk.entryAt? (path.goal start.disk.current) = some (.file content) ↔
            start.disk.entryAt? (path.goal start.disk.current) = some (.file content) := by
  intro spares
  have first : (stepsPlace (.ofText "t") "f").child "01-globals-to-abstracts.xml" ∈
      filePaths (.ofText "t") "f" := by
    decide +kernel
  have names : ∀ record ∈ (besideStart ["f", "f|../02-steps"]).foreign.records,
      (ObjectName.split record.id).1 ≠ "" := by
    decide +kernel
  have clear : ∀ record ∈ (besideStart ["f", "f|../02-steps"]).foreign.records,
      ∀ twin ∈ (besideStart ["f", "f|../02-steps"]).foreign.records,
        record.id ≠ twin.id → PlacesClear (.ofText "t") record.id twin.id := by
    unfold PlacesClear
    decide +kernel
  have outside : ∀ item ∈ unoptimized (besideStart ["f", "f|../02-steps"]).foreign,
      besideDisk.Passable item.2 ∧
        Outside (.ofText "t") besideDisk.current (item.2.goal besideDisk.current) := by
    unfold Disk.Passable Outside
    decide +kernel
  have ran : (optimizeAll (.ofText "t")).perform (besideStart ["f", "f|../02-steps"]) =
      ((besideRun ["f", "f|../02-steps"]).1, (besideRun ["f", "f|../02-steps"]).2) := by
    unfold besideRun
    exact (Prod.eta _).symm
  have made : besideDisk.exists? (optimizedPlace (.ofText "t") "f") = true := by decide +kernel
  have stays := spares (.ofText "t") (besideStart ["f", "f|../02-steps"])
    (besideRun ["f", "f|../02-steps"]).2 (besideRun ["f", "f|../02-steps"]).1 beside_sound
    (by unfold Catalog.Sorted Ordered.Ascending; decide +kernel)
    (by unfold Disk.Passable; decide +kernel) names clear outside ran "f"
    ⟨_, List.mem_cons_self, rfl⟩ made _ first (.text "first")
  have stood : besideDisk.entryAt? (((stepsPlace (.ofText "t") "f").child
      "01-globals-to-abstracts.xml").goal besideDisk.current) = some (.file (.text "first")) := by
    decide +kernel
  have overwritten : (besideRun ["f", "f|../02-steps"]).2.disk.entryAt? (((stepsPlace
      (.ofText "t") "f").child "01-globals-to-abstracts.xml").goal besideDisk.current) ≠
        some (.file (.text "first")) := by
    decide +kernel
  exact overwritten (stays.2 stood)

end EoAssembly.Build
