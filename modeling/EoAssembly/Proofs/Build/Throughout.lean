import EoAssembly.Build.Pulled
import EoAssembly.Proofs.Build.Step

/-!
Contract: what holds throughout a build, wherever it stops.

A step keeps a property throughout when it leads from where the property holds to where
it holds, whether or not it succeeds.  A step made of others does when each of them does;
to record a pulled source is five operations, and keeps what these keep.

Owns `Step.KeepsThroughout` with its composition, `Recording`, and the pinning of names.
-/

namespace EoAssembly

namespace Step

variable {α β : Type} {holds : Workspace → Prop}

/-- A step leads from where a property holds to where it holds, whatever becomes of it. -/
def KeepsThroughout (step : Step α) (holds : Workspace → Prop) : Prop :=
  ∀ before outcome after, holds before → step.perform before = (outcome, after) → holds after

namespace KeepsThroughout

theorem pure {value : α} : (Pure.pure value : Step α).KeepsThroughout holds := by
  intro before outcome after here ran
  rw [perform_pure] at ran
  rw [← (Prod.mk.inj ran).2]
  exact here

theorem look {view : Workspace → α} : (Step.look view).KeepsThroughout holds := by
  intro before outcome after here ran
  rw [← (Prod.mk.inj ran).2]
  exact here

theorem ofOutcome {result : Except Failure α} : (Step.ofOutcome result).KeepsThroughout holds := by
  intro before outcome after here ran
  rw [← (Prod.mk.inj ran).2]
  exact here

theorem bind {step : Step α} {next : α → Step β} (first : step.KeepsThroughout holds)
    (second : ∀ value, (next value).KeepsThroughout holds) :
    (step >>= next).KeepsThroughout holds := by
  intro before outcome after here ran
  rcases ends_bind ran with ⟨failure, failed, _⟩ | ⟨value, between, yields, ranNext⟩
  · exact first before (.error failure) after here failed
  · have there := first before (.ok value) between here yields
    exact second value between outcome after there ranNext

/-- What follows an outcome may rely on its success. -/
theorem bind_ofOutcome {result : Except Failure α} {next : α → Step β}
    (second : ∀ value, result = .ok value → (next value).KeepsThroughout holds) :
    (Step.ofOutcome result >>= next).KeepsThroughout holds := by
  intro before outcome after here ran
  rw [perform_bind] at ran
  cases result with
  | error failure =>
    rw [← (Prod.mk.inj ran).2]
    exact here
  | ok value => exact second value rfl before outcome after here ran

/-- What follows a look at a workspace may rely on what holds there. -/
theorem bind_look {view : Workspace → α} {next : α → Step β}
    (second : ∀ present, holds present → (next (view present)).KeepsThroughout holds) :
    (Step.look view >>= next).KeepsThroughout holds := by
  intro before outcome after here ran
  rw [perform_look_bind] at ran
  exact second before here before outcome after here ran

theorem ite {condition : Prop} [Decidable condition] {first second : Step α}
    (whenTrue : first.KeepsThroughout holds) (whenFalse : second.KeepsThroughout holds) :
    (if condition then first else second).KeepsThroughout holds := by
  split
  · exact whenTrue
  · exact whenFalse

end KeepsThroughout

end Step

namespace Build

variable {settings : Settings} {remote : Remote} {name : String} {source : Path}
  {hash : Option String} {known : Option HashTable} {holds : Workspace → Prop}

/-- Pinning a name asks for the table at most. -/
theorem pinned_keepsThroughout (table : (Step.table remote).KeepsThroughout holds) :
    (pinned remote known name).KeepsThroughout holds := by
  unfold pinned
  cases (ObjectName.split name).2 with
  | none => exact .pure
  | some version =>
    refine .bind ?_ fun table => .bind .ofOutcome fun hash => .pure
    cases known with
    | none => exact table
    | some table => exact .pure

/-- A property that every operation keeps that records a pulled source and makes its
document. -/
structure Recording (settings : Settings) (remote : Remote) (name : String) (source : Path)
    (hash : Option String) (holds : Workspace → Prop) : Prop where
  add : (Step.addForeign name).KeepsThroughout holds
  mark : (Step.updateForeign name
    (asPulled source (ObjectName.split name).2 hash)).KeepsThroughout holds
  parse : ∀ text, (Step.parse remote name text).KeepsThroughout holds
  save : ∀ document, (Step.save document (parsedPlace settings.target name)).KeepsThroughout holds
  made : (Step.updateForeign name
    (asParsed (parsedPlace settings.target name))).KeepsThroughout holds

theorem Recording.parseObject (recording : Recording settings remote name source hash holds) :
    (Build.parseObject settings remote name).KeepsThroughout holds := by
  unfold Build.parseObject
  refine .bind .look fun workspace => ?_
  refine .bind .ofOutcome fun path => ?_
  refine .bind .ofOutcome fun text => ?_
  refine .bind (recording.parse text) fun made => ?_
  refine .bind .ofOutcome fun document => ?_
  refine .bind (recording.save document) fun _ => ?_
  exact .bind recording.made fun _ => .pure

theorem Recording.recordPulled (recording : Recording settings remote name source hash holds) :
    (Build.recordPulled settings remote name source hash).KeepsThroughout holds := by
  unfold Build.recordPulled
  refine .bind recording.add fun _ => ?_
  refine .bind recording.mark fun record => ?_
  exact .ite (.bind recording.parseObject fun _ => .pure) .pure

end Build

end EoAssembly
