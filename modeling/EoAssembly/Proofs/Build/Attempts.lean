import EoAssembly.Proofs.Build.Reordered

/-!
Contract: attempts at documents that go on after a failure.

Each attempt alters the files of its own object only.  So what an attempt answers follows from the
disk at the beginning, whatever was attempted before; an optimized form that is there at the
beginning stays with the results of its passes, and one that is missing stays missing unless its
attempt succeeds.

Owns `attemptEach` and what attempts in any order answer and leave.

Does not own: recording, which is not begun before all attempts succeeded.
-/

namespace EoAssembly.Build

open Disk (Touches)
open ObjectName (Lettered)

variable {target path place : Path} {id : String} {item : String × Path} {catalog : Catalog}
  {start between after : Workspace} {order done : List (String × Path)}
  {answers : List ((String × Path) × Except Failure Path)}

/-! ## Single attempts -/

/-- Where an optimized form exists nothing is done. -/
theorem optimizeDocument_finished {xmir : Path}
    (made : start.disk.exists? (optimizedPlace target id) = true) :
    (optimizeDocument target id xmir).Yields start (optimizedPlace target id) start :=
  optimizeDocument_yields.2 ⟨rfl, [], start.disk, filesDue_eq_ok.2 (Or.inl ⟨made, rfl⟩), rfl, rfl⟩

/-- A failed attempt at a document does not make its optimized form. -/
theorem optimizeDocument_failed {xmir : Path} {failure : Failure}
    (orderly : Orderly target catalog start.disk) (lists : Lists catalog id)
    (missing : start.disk.exists? (optimizedPlace target id) = false)
    (ran : (optimizeDocument target id xmir).perform start = (.error failure, after)) :
    after.disk.exists? (optimizedPlace target id) = false := by
  have lettered := orderly.lettered id lists
  have touches := ((optimizeDocument_alters lettered orderly.sound ran).2 failure rfl).touches
  have isPlace : optimizedPlace target id ∈ filePaths target id := by simp [filePaths]
  have passable := orderly.passable_file lists isPlace
  have ends : (optimizedPlace target id).EndsInName :=
    endsInName_stage isName_optimized isExtension_document lettered.placeable target
  have nothing :
      start.disk.entryAt? ((optimizedPlace target id).goal start.disk.current) = none := by
    rw [← Disk.entry_of_name ends passable]
    exact Disk.not_exists?_iff.1 missing
  have noDirectory := Disk.directoryAt_of_none nothing
  unfold Disk.exists?
  rw [Disk.entry_of_name ends (touches.passable passable), touches.current,
    touches.none_stays _ (by simp) _ nothing]
  · rfl
  · intro member
    obtain ⟨step, isStep, same⟩ := List.mem_map.1 member
    apply goal_optimizedPlace_apart lettered isStep start.disk.current
    exact same ▸ List.prefix_rfl
  · intro member
    obtain ⟨file, isFile, above⟩ := List.mem_flatMap.1 member
    rcases List.mem_append.1 isFile with isStep | isOwn
    · exact not_above orderly.sound (orderly.passable_file lists isFile)
        (goal_optimizedPlace_apart lettered isStep _) noDirectory above
    · rw [List.mem_singleton.1 isOwn] at above
      exact not_above_self orderly.sound ends passable noDirectory above

/-! ## Attempts one after the other -/

/-- Attempts at documents in an order, each with its outcome.  One that fails does not keep the
others from being made. -/
def attemptEach (target : Path) :
    List (String × Path) → Workspace → List ((String × Path) × Except Failure Path) × Workspace
  | [], start => ([], start)
  | item :: rest, start =>
    let (outcome, between) := (optimizeDocument target item.1 item.2).perform start
    let (answers, after) := attemptEach target rest between
    ((item, outcome) :: answers, after)

theorem attemptEach_cons (ran : attemptEach target (item :: order) start = (answers, after)) :
    ∃ outcome between others,
      (optimizeDocument target item.1 item.2).perform start = (outcome, between) ∧
        attemptEach target order between = (others, after) ∧
          answers = (item, outcome) :: others := by
  obtain ⟨isAnswers, isAfter⟩ := Prod.mk.inj ran
  exact ⟨_, _, _, rfl, Prod.ext rfl isAfter, isAnswers.symm⟩

theorem attemptEach_items (ran : attemptEach target order start = (answers, after)) :
    answers.map Prod.fst = order := by
  induction order generalizing start answers with
  | nil =>
    rw [← (Prod.mk.inj ran).1]
    rfl
  | cons item rest inductionHypothesis =>
    obtain ⟨outcome, between, others, _, ranRest, rfl⟩ := attemptEach_cons ran
    rw [List.map_cons, inductionHypothesis ranRest]

section Orders

variable (orderly : Orderly target catalog start.disk)
  (waits : ∀ item ∈ order, item ∈ unoptimized catalog)
  (ran : attemptEach target order start = (answers, after))

include orderly waits ran

/-- All attempts alter the files of their objects only. -/
theorem attemptEach_alters :
    AltersFiles (order.flatMap fun item => filePaths target item.1)
      (order.flatMap fun item => filePaths target item.1) start after := by
  induction order generalizing start answers with
  | nil =>
    rw [← (Prod.mk.inj ran).2]
    exact .refl orderly.sound
  | cons item rest inductionHypothesis =>
    obtain ⟨waitsFirst, waitsRest⟩ := List.forall_mem_cons.1 waits
    obtain ⟨outcome, between, others, ranFirst, ranRest, _⟩ := attemptEach_cons ran
    have lettered := orderly.lettered _ (lists_of_unoptimized waitsFirst)
    have first := (optimizeDocument_alters lettered orderly.sound ranFirst).1
    have second := inductionHypothesis (orderly.later first.touches) waitsRest ranRest
    have here : filePaths target item.1 ⊆
        (item :: rest).flatMap fun item => filePaths target item.1 := by
      rw [List.flatMap_cons]
      exact List.subset_append_left _ _
    have later : (rest.flatMap fun item => filePaths target item.1) ⊆
        (item :: rest).flatMap fun item => filePaths target item.1 := by
      rw [List.flatMap_cons]
      exact List.subset_append_right _ _
    exact (first.mono here here).trans (second.mono later later)

/-- An optimized form that is there at the beginning stays, with the results of its passes. -/
theorem attemptEach_finished (lists : Lists catalog id)
    (made : start.disk.exists? (optimizedPlace target id) = true) :
    after.disk.exists? (optimizedPlace target id) = true ∧ ∀ path ∈ filePaths target id,
      after.disk.entryAt? (path.goal start.disk.current) =
        start.disk.entryAt? (path.goal start.disk.current) := by
  induction order generalizing start answers with
  | nil =>
    rw [← (Prod.mk.inj ran).2]
    exact ⟨made, fun _ _ => rfl⟩
  | cons item rest inductionHypothesis =>
    obtain ⟨waitsFirst, waitsRest⟩ := List.forall_mem_cons.1 waits
    obtain ⟨outcome, between, others, ranFirst, ranRest, _⟩ := attemptEach_cons ran
    by_cases own : item.1 = id
    · rw [own, optimizeDocument_finished made] at ranFirst
      rw [← (Prod.mk.inj ranFirst).2] at ranRest
      exact inductionHypothesis orderly waitsRest ranRest made
    · have listsFirst := lists_of_unoptimized waitsFirst
      have lettered := orderly.lettered _ listsFirst
      have alters := (optimizeDocument_alters lettered orderly.sound ranFirst).1
      have madeThere := exists?_spared orderly lists listsFirst (Ne.symm own) alters
      rw [made] at madeThere
      obtain ⟨stays, same⟩ :=
        inductionHypothesis (orderly.later alters.touches) waitsRest ranRest madeThere
      refine ⟨stays, fun path isFile => ?_⟩
      rw [alters.touches.current] at same
      rw [same path isFile]
      exact spared orderly lists listsFirst (Ne.symm own) alters isFile

/-- An optimized form that is missing stays missing unless its attempt succeeds. -/
theorem attemptEach_missing (lists : Lists catalog id)
    (missing : start.disk.exists? (optimizedPlace target id) = false)
    (fails : ∀ item place, item.1 = id → (item, .ok place) ∉ answers) :
    after.disk.exists? (optimizedPlace target id) = false := by
  induction order generalizing start answers with
  | nil =>
    rw [← (Prod.mk.inj ran).2]
    exact missing
  | cons item rest inductionHypothesis =>
    obtain ⟨waitsFirst, waitsRest⟩ := List.forall_mem_cons.1 waits
    obtain ⟨outcome, between, others, ranFirst, ranRest, rfl⟩ := attemptEach_cons ran
    have listsFirst := lists_of_unoptimized waitsFirst
    have lettered := orderly.lettered _ listsFirst
    have alters := (optimizeDocument_alters lettered orderly.sound ranFirst).1
    have missingThere : between.disk.exists? (optimizedPlace target id) = false := by
      by_cases own : item.1 = id
      · cases outcome with
        | ok place => exact absurd List.mem_cons_self (fails item place own)
        | error failure =>
          rw [own] at ranFirst
          exact optimizeDocument_failed orderly lists missing ranFirst
      · rw [exists?_spared orderly lists listsFirst (Ne.symm own) alters]
        exact missing
    apply inductionHypothesis (orderly.later alters.touches) waitsRest ranRest missingThere
    exact fun other place own member => fails other place own (List.mem_cons_of_mem _ member)

/-- An attempt that succeeds could have succeeded at the beginning. -/
theorem attemptEach_due (distinct : (order.map Prod.fst).Nodup)
    (answered : (item, .ok place) ∈ answers) :
    place = optimizedPlace target item.1 ∧
      ∃ files, filesDue target start.disk item = .ok files := by
  induction order generalizing start answers with
  | nil =>
    rw [← (Prod.mk.inj ran).1] at answered
    exact absurd answered (by simp)
  | cons first rest inductionHypothesis =>
    obtain ⟨waitsFirst, waitsRest⟩ := List.forall_mem_cons.1 waits
    obtain ⟨isNew, distinctRest⟩ := List.nodup_cons.1 distinct
    obtain ⟨outcome, between, others, ranFirst, ranRest, rfl⟩ := attemptEach_cons ran
    have listsFirst := lists_of_unoptimized waitsFirst
    have lettered := orderly.lettered _ listsFirst
    have alters := (optimizeDocument_alters lettered orderly.sound ranFirst).1
    rcases List.mem_cons.1 answered with here | later
    · obtain ⟨rfl, rfl⟩ := Prod.mk.inj here
      obtain ⟨isPlace, files, _, due, _⟩ := optimizeDocument_yields.1 ranFirst
      exact ⟨isPlace, files, due⟩
    · obtain ⟨isPlace, files, due⟩ := inductionHypothesis (orderly.later alters.touches) waitsRest
        ranRest distinctRest later
      have among : item ∈ rest := by
        rw [← attemptEach_items ranRest]
        exact List.mem_map_of_mem later
      have different : item.1 ≠ first.1 := fun same => isNew (same ▸ List.mem_map_of_mem among)
      exact ⟨isPlace, files,
        (filesDue_later orderly (waitsRest item among) listsFirst different alters).1 due⟩

end Orders

/-- Attempts that all succeed come to attempts that stop at the first failure. -/
theorem attemptEach_yields (ran : attemptEach target order start = (answers, after))
    (succeed : ∀ answer ∈ answers, ∃ place, answer.2 = .ok place) :
    (optimizeEach target order).Yields start (placed target order) after := by
  induction order generalizing start answers with
  | nil =>
    rw [← (Prod.mk.inj ran).2]
    exact Step.yields_pure.2 ⟨rfl, rfl⟩
  | cons item rest inductionHypothesis =>
    obtain ⟨outcome, between, others, ranFirst, ranRest, rfl⟩ := attemptEach_cons ran
    obtain ⟨⟨place, isOk⟩, succeedRest⟩ := List.forall_mem_cons.1 succeed
    simp only at isOk
    rw [isOk] at ranFirst
    have isPlace := (optimizeDocument_yields.1 ranFirst).1
    rw [isPlace] at ranFirst
    exact optimizeEach_cons.2 ⟨between, _, ranFirst, inductionHypothesis ranRest succeedRest, rfl⟩

theorem attemptEach_of_yields (ran : (optimizeEach target order).Yields start done after) :
    attemptEach target order start =
      (order.map fun item => (item, .ok (optimizedPlace target item.1)), after) := by
  induction order generalizing start done with
  | nil =>
    rw [(Step.yields_pure.1 ran).2]
    rfl
  | cons item rest inductionHypothesis =>
    obtain ⟨between, others, ranFirst, ranRest, _⟩ := optimizeEach_cons.1 ran
    unfold attemptEach
    rw [ranFirst]
    simp only [inductionHypothesis ranRest]
    rfl

/-- Where attempts stop at a failure, those up to it were made. -/
theorem attemptEach_of_error {failure : Failure}
    (ran : (optimizeEach target order).perform start = (.error failure, after)) :
    ∃ front item behind answers, order = front ++ item :: behind ∧
      attemptEach target (front ++ [item]) start = (answers, after) ∧
        (item, .error failure) ∈ answers := by
  induction order generalizing start with
  | nil => exact absurd (Prod.mk.inj ran).1 (by simp)
  | cons item rest inductionHypothesis =>
    obtain ⟨id, xmir⟩ := item
    simp only [optimizeEach, Step.perform_bind] at ran
    cases performed : (optimizeDocument target id xmir).perform start with
    | mk outcome between =>
      rw [performed] at ran
      cases outcome with
      | error refusal =>
        obtain ⟨same, rfl⟩ := Prod.mk.inj ran
        obtain rfl := Except.error.inj same
        refine ⟨[], (id, xmir), rest, [((id, xmir), .error refusal)], rfl, ?_, by simp⟩
        simp only [List.nil_append, attemptEach, performed]
      | ok place =>
        simp only at ran
        cases performedRest : (optimizeEach target rest).perform between with
        | mk answer last =>
          rw [performedRest] at ran
          cases answer with
          | ok others => exact absurd (Prod.mk.inj ran).1 (by simp)
          | error refusal =>
            obtain ⟨same, rfl⟩ := Prod.mk.inj ran
            obtain rfl := Except.error.inj same
            obtain ⟨front, item, behind, answers, rfl, attempted, failed⟩ :=
              inductionHypothesis performedRest
            refine ⟨(id, xmir) :: front, item, behind, ((id, xmir), .ok place) :: answers, rfl, ?_,
              List.mem_cons_of_mem _ failed⟩
            simp only [List.cons_append, attemptEach, performed, attempted]

end EoAssembly.Build
