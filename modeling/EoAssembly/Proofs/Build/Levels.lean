import EoAssembly.Proofs.Build.Fetching
import EoAssembly.Proofs.Build.Optimizing

/-!
Contract: a cycle goes one reference further.

After as many cycles as references lead from the registered objects to another
one, the object has a source.  A cycle parses, optimizes and looks through what
the last one gave a source, and pulls what that refers to.  It leaves the state of
every object when no object is that far away.

Owns `frontAt`, the marks behind each stage of a cycle, what a cycle makes of `frontAt`, and when
the cycles end.

Does not own: registering.
-/

namespace EoAssembly.Build

/-! ## Distances -/

section Distance

variable {roots : List String} {refers : String → List String} {count : Nat} {id name : String}

/-- Fewer references than a number lead from a root to an object. -/
def Nearer (roots : List String) (refers : String → List String) : Nat → String → Prop
  | 0, _ => False
  | count + 1, id => Within roots refers count id

theorem Nearer.within (nearer : Nearer roots refers count id) : Within roots refers count id := by
  cases count with
  | zero => exact nearer.elim
  | succ fewer => exact Within.mono (Nat.le_succ fewer) nearer

theorem Nearer.further (nearer : Nearer roots refers count id) (member : name ∈ refers id) :
    Within roots refers count name := by
  cases count with
  | zero => exact nearer.elim
  | succ fewer => exact within_succ.2 (Or.inr ⟨id, nearer, member⟩)

theorem Nearer.not_atDistance (nearer : Nearer roots refers count id) :
    ¬AtDistance roots refers count id := by
  cases count with
  | zero => exact nearer.elim
  | succ fewer => exact fun here => here.not_within (Nat.lt_succ_self fewer) nearer

theorem Within.nearer_or (within : Within roots refers count id) :
    Nearer roots refers count id ∨ AtDistance roots refers count id := by
  by_cases nearer : Nearer roots refers count id
  · exact Or.inl nearer
  · obtain ⟨fewer, below, reaches⟩ := within
    have least : ∀ other, Reaches roots refers other id → count ≤ other := by
      intro other there
      cases count with
      | zero => exact Nat.zero_le other
      | succ less =>
        rcases Nat.lt_or_ge less other with above | under
        · exact above
        · exact absurd ⟨other, under, there⟩ nearer
    rw [Nat.le_antisymm below (least fewer reaches)] at reaches
    exact Or.inr ⟨reaches, least⟩

/-- No object is as far away as this. -/
def Exhausted (roots : List String) (refers : String → List String) (count : Nat) : Prop :=
  ∀ id, Within roots refers count id → Nearer roots refers count id

theorem exhausted_of_nothing (nothing : ¬∃ id, AtDistance roots refers count id) :
    Exhausted roots refers count :=
  fun id here => here.nearer_or.resolve_right fun farthest => nothing ⟨id, farthest⟩

theorem Exhausted.positive (done : Exhausted roots refers count) (here : Within roots refers count id) :
    0 < count := by
  cases count with
  | zero => exact (done id here).elim
  | succ fewer => exact Nat.succ_pos fewer

theorem within_succ_iff : Within roots refers (count + 1) name ↔
    Within roots refers count name ∨
      ∃ id, Within roots refers count id ∧ ¬Nearer roots refers count id ∧ name ∈ refers id := by
  rw [within_succ]
  constructor
  · rintro (within | ⟨id, within, member⟩)
    · exact Or.inl within
    · by_cases nearer : Nearer roots refers count id
      · exact Or.inl (nearer.further member)
      · exact Or.inr ⟨id, within, nearer, member⟩
  · rintro (within | ⟨id, within, _, member⟩)
    · exact Or.inl within
    · exact Or.inr ⟨id, within, member⟩

theorem IsDepth.needed_iff {depth : Nat} (isDepth : IsDepth roots refers depth)
    (less : depth ≤ count) : Within roots refers count id ↔ Needed roots refers id :=
  ⟨Within.needed, fun needed => (isDepth.within id needed).mono less⟩

/-- Nothing is farther away than the depth. -/
theorem IsDepth.not_atDistance {depth : Nat} (isDepth : IsDepth roots refers depth)
    (farther : depth < count) : ¬AtDistance roots refers count id := by
  intro here
  exact here.not_within farther (isDepth.within id ⟨count, here.1⟩)

end Distance

/-! ## One cycle -/

variable {settings : Settings} {remote : Remote} {start before after : Workspace}
  {asked : List String} {level : Nat}

/-- The marks of objects after a number of cycles. -/
def frontAt (settings : Settings) (remote : Remote) (start : Disk) (level : Nat) : Front := fun id =>
  let roots := registeredIds settings start
  let refers := references settings remote start
  { known := Within roots refers level id
    sourced := Within roots refers level id
    parsed := 0 < level ∧ Within roots refers level id
    made := Nearer roots refers level id
    optimized := Nearer roots refers level id
    discovered := Nearer roots refers level id }

/-- The marks of objects in a cycle that has parsed. -/
def frontParsed (settings : Settings) (remote : Remote) (start : Disk) (level : Nat) : Front := fun id =>
  { frontAt settings remote start level id with
    parsed := Within (registeredIds settings start) (references settings remote start) level id }

/-- The marks of objects in a cycle that has optimized. -/
def frontOptimized (settings : Settings) (remote : Remote) (start : Disk) (level : Nat) : Front :=
  fun id =>
    { frontParsed settings remote start level id with
      made := Within (registeredIds settings start) (references settings remote start) level id
      optimized := Within (registeredIds settings start) (references settings remote start) level id }

/-- The marks of objects in a cycle that has discovered. -/
def frontDiscovered (settings : Settings) (remote : Remote) (start : Disk) (level : Nat) : Front :=
  fun id =>
    { frontOptimized settings remote start level id with
      known := Within (registeredIds settings start) (references settings remote start) (level + 1) id
      discovered := Within (registeredIds settings start) (references settings remote start) level id }

theorem Progress.congr {front ahead : Front}
    (progress : Progress settings remote start front asked before)
    (same : ∀ id, front id = ahead id) : Progress settings remote start ahead asked before := by
  have whole : front = ahead := funext same
  rw [← whole]
  exact progress

/-- An object whose optimized document a cycle makes changes the state. -/
theorem state_changes {front ahead : Front} {more : List String} {id : String}
    (progress : Progress settings remote start front asked before)
    (later : Progress settings remote start ahead more after) (waits : ¬(front id).optimized)
    (done : (ahead id).optimized) : before.foreign.state ≠ after.foreign.state := by
  intro same
  have known := (later.recorded.within id).2.2.2.1 done
  obtain ⟨record, found⟩ := (later.recorded.known id).2 known
  have optimized := (later.recorded.describes id record found).optimized_iff.2 done
  obtain ⟨old, foundOld, within⟩ := Catalog.grows_of_state same.symm id record found
  exact waits ((progress.recorded.describes id old foundOld).optimized_iff.1
    (within.optimized optimized))

section Stages

variable {count : Nat}

theorem Progress.parsing (scene : Scene settings remote start.disk)
    (progress : Progress settings remote start (frontAt settings remote start.disk level) asked before)
    (ran : (Build.parseAll settings remote).Yields before count after) :
    Progress settings remote start (frontParsed settings remote start.disk level) asked after ∧
      (Exhausted (registeredIds settings start.disk) (references settings remote start.disk) level →
        after = before) := by
  obtain ⟨parsing, idle⟩ := progress.parseAll scene ran
  refine ⟨parsing.congr fun id => ?_, fun done => idle fun id here => ⟨done.positive here, here⟩⟩
  ext
  · rfl
  · rfl
  · exact or_iff_right_of_imp And.right
  · rfl
  · rfl
  · rfl

theorem Progress.optimizing (scene : Scene settings remote start.disk)
    (progress : Progress settings remote start (frontParsed settings remote start.disk level) asked
      before)
    (ran : (Build.optimizeAll settings.target).Yields before count after) :
    Progress settings remote start (frontOptimized settings remote start.disk level) asked after ∧
      (Exhausted (registeredIds settings start.disk) (references settings remote start.disk) level →
        after = before) := by
  obtain ⟨optimizing, idle⟩ :=
    progress.optimizeAll scene (fun _ here => here) (fun _ here => here) ran
  refine ⟨optimizing.congr fun id => ?_, idle⟩
  ext
  · rfl
  · rfl
  · rfl
  · exact or_iff_right_of_imp Nearer.within
  · exact or_iff_right_of_imp Nearer.within
  · rfl

theorem Progress.discovering (scene : Scene settings remote start.disk)
    (progress : Progress settings remote start (frontOptimized settings remote start.disk level) asked
      before)
    (ran : Build.discoverAll.Yields before count after) :
    Progress settings remote start (frontDiscovered settings remote start.disk level) asked after ∧
      (Exhausted (registeredIds settings start.disk) (references settings remote start.disk) level →
        after = before) := by
  obtain ⟨discovering, idle⟩ :=
    progress.discoverAll scene (fun _ here => here) (fun _ here => here) ran
  refine ⟨discovering.congr fun id => ?_, idle⟩
  ext
  · exact within_succ_iff.symm
  · rfl
  · rfl
  · rfl
  · rfl
  · exact or_iff_right_of_imp Nearer.within

/-- Pulling ends a cycle, one reference further. -/
theorem Progress.pulling (scene : Scene settings remote start.disk)
    (progress : Progress settings remote start (frontDiscovered settings remote start.disk level) asked
      before)
    (ran : (Build.pullAll settings remote).Yields before count after) :
    ∃ more, Progress settings remote start (frontAt settings remote start.disk (level + 1)) more
        after ∧
      more.length = asked.length + count ∧
      (Exhausted (registeredIds settings start.disk) (references settings remote start.disk) level →
        after.foreign = before.foreign) := by
  obtain ⟨more, pulling, grown, idle⟩ :=
    progress.pullAll scene (fun _ => Iff.rfl) (fun _ here => here) (fun _ here => here)
      (fun id here name member => within_succ.2 (Or.inr ⟨id, here, member⟩)) ran
  refine ⟨more, pulling.congr fun id => ?_, grown,
    fun done => idle fun id here name member => (done id here).further member⟩
  ext
  · rfl
  · exact within_succ.symm
  · exact within_succ.symm.trans (and_iff_right (Nat.succ_pos level)).symm
  · rfl
  · rfl
  · rfl

end Stages

/-- A cycle goes one reference further, and leaves the state of every object when no
object is that far away. -/
theorem Progress.cycle {count : Nat} (scene : Scene settings remote start.disk)
    (progress : Progress settings remote start (frontAt settings remote start.disk level) asked
      before)
    (ran : (cycle settings remote).Yields before count after) :
    ∃ more, Progress settings remote start (frontAt settings remote start.disk (level + 1)) more
        after ∧
      more.length = asked.length + count ∧
      (before.foreign.state = after.foreign.state ↔ ¬∃ id,
        AtDistance (registeredIds settings start.disk) (references settings remote start.disk)
          level id) := by
  obtain ⟨_, parsed, _, optimized, _, discovered, ranParse, ranOptimize, ranDiscover, ranPull⟩ :=
    yields_cycle.1 ran
  obtain ⟨parsing, parseIdle⟩ := progress.parsing scene ranParse
  obtain ⟨optimizing, optimizeIdle⟩ := parsing.optimizing scene ranOptimize
  obtain ⟨discovering, discoverIdle⟩ := optimizing.discovering scene ranDiscover
  obtain ⟨more, pulling, grown, pullIdle⟩ := discovering.pulling scene ranPull
  refine ⟨more, pulling, grown, fun same => ?_, fun nothing => ?_⟩
  · rintro ⟨id, here⟩
    exact state_changes progress pulling (fun optimized => optimized.not_atDistance here)
      ⟨level, Nat.le_refl level, here.1⟩ same
  · -- every stage finds its work done
    have done := exhausted_of_nothing nothing
    rw [pullIdle done, discoverIdle done, optimizeIdle done, parseIdle done]

/-- Whether every cycle that a bounded build starts succeeds. -/
def CyclesSucceed (settings : Settings) (remote : Remote) : Nat → Workspace → Prop
  | 0, _ => True
  | left + 1, before =>
    ∃ fetched after, (cycle settings remote).Yields before fetched after ∧
      (before.foreign.state ≠ after.foreign.state → CyclesSucceed settings remote left after)

/-- Cycles that begin with a given one end with it, or go on from what it left. -/
theorem yields_settle_of_cycle {left fetched : Nat} {answer : Nat × Nat} {final : Workspace}
    (ranCycle : (cycle settings remote).Yields before fetched after) :
    (settle settings remote (left + 1)).Yields before answer final ↔
      (before.foreign.state = after.foreign.state ∧ (1, fetched) = answer ∧ after = final) ∨
      (before.foreign.state ≠ after.foreign.state ∧ ∃ others,
        (settle settings remote left).Yields after others final ∧
        (others.1 + 1, fetched + others.2) = answer) := by
  constructor
  · intro ran
    obtain ⟨count, last, ranHere, branches⟩ := yields_settle.1 ran
    obtain ⟨rfl, rfl⟩ := ranCycle.unique ranHere
    exact branches
  · exact fun branches => yields_settle.2 ⟨fetched, after, ranCycle, branches⟩

/-- Cycles end after the one that goes beyond the depth, unless the bound ends them. -/
theorem Progress.settle {depth bound : Nat} (scene : Scene settings remote start.disk)
    (isDepth : IsDepth (registeredIds settings start.disk) (references settings remote start.disk)
      depth)
    (below : level ≤ depth + 1)
    (progress : Progress settings remote start (frontAt settings remote start.disk level) asked
      before)
    (succeed : CyclesSucceed settings remote bound before) :
    ((∃ answer final, (settle settings remote bound).Yields before answer final) ↔
      depth + 2 ≤ bound + level) ∧
    ∀ answer final, (settle settings remote bound).Yields before answer final →
      answer.1 + level = depth + 2 ∧
      ∃ more, Progress settings remote start (frontAt settings remote start.disk (depth + 2)) more
          final ∧
        more.length = asked.length + answer.2 := by
  induction bound generalizing level asked before with
  | zero =>
    refine ⟨⟨?_, fun enough => ?_⟩, fun answer final ran => absurd ran Step.yields_fail⟩
    · rintro ⟨answer, final, ran⟩
      exact absurd ran Step.yields_fail
    · omega
  | succ left inductionHypothesis =>
    obtain ⟨fetched, after, ranCycle, rest⟩ := succeed
    obtain ⟨more, further, grown, stays⟩ := progress.cycle scene ranCycle
    rcases Nat.lt_or_ge depth level with beyond | near
    · have same : before.foreign.state = after.foreign.state :=
        stays.2 fun ⟨_, here⟩ => isDepth.not_atDistance beyond here
      have last : level = depth + 1 := by omega
      rw [last] at further
      refine ⟨⟨fun _ => by omega, fun _ => ⟨(1, fetched), after, ?_⟩⟩, fun answer final ran => ?_⟩
      · exact (yields_settle_of_cycle ranCycle).2 (Or.inl ⟨same, rfl, rfl⟩)
      · rcases (yields_settle_of_cycle ranCycle).1 ran with ⟨_, rfl, rfl⟩ | ⟨changed, _⟩
        · exact ⟨by simp only; omega, more, further, grown⟩
        · exact absurd same changed
    · have changed : before.foreign.state ≠ after.foreign.state := fun same =>
        stays.1 same (isDepth.atDistance near)
      obtain ⟨ends, answers⟩ := inductionHypothesis (by omega) further (rest changed)
      constructor
      · have shifted : depth + 2 ≤ left + 1 + level ↔ depth + 2 ≤ left + (level + 1) := by omega
        rw [shifted, ← ends]
        constructor
        · rintro ⟨answer, final, ran⟩
          rcases (yields_settle_of_cycle ranCycle).1 ran with ⟨same, _⟩ | ⟨_, others, ranRest, _⟩
          · exact absurd same changed
          · exact ⟨others, final, ranRest⟩
        · rintro ⟨others, final, ranRest⟩
          exact ⟨_, final, (yields_settle_of_cycle ranCycle).2
            (Or.inr ⟨changed, others, ranRest, rfl⟩)⟩
      · intro answer final ran
        rcases (yields_settle_of_cycle ranCycle).1 ran with ⟨same, _⟩ | ⟨_, others, ranRest, rfl⟩
        · exact absurd same changed
        · obtain ⟨cycles, last, settled, grownRest⟩ := answers others final ranRest
          refine ⟨by simp only; omega, last, settled, ?_⟩
          simp only
          omega

end EoAssembly.Build
