import EoAssembly.CommitHash.Slot
import Mathlib.Data.List.Basic
import Mathlib.Logic.Relation

/-!
Contract: a cache serves one text for its whole life.

A program makes caches, clones handles and asks through any handle it was given, in any order and
with loaders that succeed or fail as they like.  Handles share a slot when clones connect them.  Of
the loaders that are offered through the handles of one slot those run that come before the first
success, and from then on every answer is that text.  What is done through handles of another slot
makes no difference.

Owns `SlotPool.turns`, `SlotPool.Shares`, `SlotPool.Told`, and these laws.
-/

namespace EoAssembly.SlotPool

/-! ## Programs that use caches -/

/-- What a program asks for: a new cache, a clone of a handle, or through a handle whether the text
is there, the text, or the table that is built from it. -/
inductive Call where
  | create
  | share (handle : Nat)
  | isLoaded (handle : Nat)
  | load (handle : Nat) (loader : Except Failure String)
  | table (handle : Nat) (loader : Except Failure String)

/-- What it is given: a handle, a yes or no, or an outcome and whether the loader was run for it. -/
inductive Answer where
  | made (handle : Nat)
  | loaded (answer : Bool)
  | text (outcome : Except Failure String) (ran : Bool)
  | table (outcome : Except Failure HashTable) (ran : Bool)

/-- A call and its answer. -/
structure Turn where
  call : Call
  answer : Answer

/-- The handle that a call goes through. -/
def Call.handle? : Call → Option Nat
  | .create => none
  | .share handle | .isLoaded handle | .load handle _ | .table handle _ => some handle

/-- The number of handles behind a call. -/
def Call.count (before : Nat) : Call → Nat
  | .create | .share _ => before + 1
  | .isLoaded _ | .load _ _ | .table _ _ => before

/-- Each call goes through a handle that was made before it, where `count` of them are there at
first. -/
def Proper (count : Nat) : List Call → Prop
  | [] => True
  | call :: rest =>
    (∀ handle, call.handle? = some handle → handle < count) ∧ Proper (call.count count) rest

/-- The pool of a program that has no cache yet. -/
def vacant : SlotPool := ⟨[], []⟩

/-- The answer to a call, and the pool behind it. -/
def perform (pool : SlotPool) : Call → Answer × SlotPool
  | .create => (.made pool.create.1, pool.create.2)
  | .share handle => (.made (pool.share handle).1, (pool.share handle).2)
  | .isLoaded handle => (.loaded (pool.slot handle).isLoaded, pool)
  | .load handle loader =>
    let (outcome, next, ran) := pool.load handle loader
    (.text outcome ran, next)
  | .table handle loader =>
    let (outcome, next, ran) := pool.table handle loader
    (.table outcome ran, next)

/-- The turns of calls that are made one after another. -/
def turns (pool : SlotPool) : List Call → List Turn
  | [] => []
  | call :: rest => ⟨call, (pool.perform call).1⟩ :: turns (pool.perform call).2 rest

/-! ## What the turns say -/

/-- The handle and the text of a loader that was run and succeeded. -/
def Turn.gave : Turn → Option (Nat × String)
  | ⟨.load handle (.ok text), .text _ true⟩ => some (handle, text)
  | ⟨.table handle (.ok text), .table _ true⟩ => some (handle, text)
  | _ => none

/-- Clones connect two handles. -/
def Shares (told : List Turn) : Nat → Nat → Prop :=
  Relation.EqvGen fun origin handle => ⟨.share origin, .made handle⟩ ∈ told

/-- A loader that was run through a handle of the same slot gave a text. -/
def Fills (told : List Turn) (handle : Nat) (turn : Turn) (text : String) : Prop :=
  ∃ own, turn.gave = some (own, text) ∧ Shares told own handle

/-- Some loader that was run through a handle of the same slot succeeded. -/
def Loaded (told : List Turn) (handle : Nat) : Prop :=
  ∃ turn ∈ told, ∃ text, Fills told handle turn text

/-- The first loader that was run through a handle of the same slot and succeeded gave a text. -/
def FirstText (told : List Turn) (handle : Nat) (text : String) : Prop :=
  ∃ front turn back, told = front ++ turn :: back ∧ Fills told handle turn text ∧
    ∀ earlier ∈ front, ∀ other, ¬Fills told handle earlier other

/-- A turn behind others: handles are new, the text of a slot is there once a loader succeeded for
it, a loader is run as long as none has, every text is that of the first one that succeeded, and the
failure of one that was run is passed on and leaves the slot as it is. -/
inductive Told (before : List Turn) : Turn → Prop where
  | create (handle : Nat) (unused : ∀ turn ∈ before, turn.answer ≠ .made handle) :
    Told before ⟨.create, .made handle⟩
  | share (origin handle : Nat) (unused : ∀ turn ∈ before, turn.answer ≠ .made handle) :
    Told before ⟨.share origin, .made handle⟩
  | isLoaded (handle : Nat) (answer : Bool) (exact : answer = true ↔ Loaded before handle) :
    Told before ⟨.isLoaded handle, .loaded answer⟩
  | load (handle : Nat) (loader outcome : Except Failure String) (ran : Bool)
    (runs : ran = true ↔ ¬Loaded before handle)
    (gives : ∀ text, outcome = .ok text ↔
      FirstText (before ++ [⟨.load handle loader, .text outcome ran⟩]) handle text)
    (fails : ∀ failure, outcome = .error failure ↔ ran = true ∧ loader = .error failure)
    (unloaded : ∀ failure, outcome = .error failure →
      ¬Loaded (before ++ [⟨.load handle loader, .text outcome ran⟩]) handle) :
    Told before ⟨.load handle loader, .text outcome ran⟩
  | table (handle : Nat) (loader : Except Failure String) (outcome : Except Failure HashTable)
    (ran : Bool) (runs : ran = true ↔ ¬Loaded before handle)
    (gives : ∀ text,
      FirstText (before ++ [⟨.table handle loader, .table outcome ran⟩]) handle text →
        outcome = HashTable.ofText text)
    (fails : ∀ failure, ran = true → loader = .error failure → outcome = .error failure ∧
      ¬Loaded (before ++ [⟨.table handle loader, .table outcome ran⟩]) handle) :
    Told before ⟨.table handle loader, .table outcome ran⟩

variable {pool next : SlotPool} {told before : List Turn} {turn : Turn} {handle number own : Nat}
  {loader outcome : Except Failure String} {text : String} {ran : Bool}

/-! ## One call -/

theorem slot_eq {slot : TableSlot} (known : pool.handles[handle]? = some number)
    (found : pool.slots[number]? = some slot) : pool.slot handle = slot := by
  unfold SlotPool.slot
  rw [known]
  simp only [found, Option.getD_some]

/-- What loading into the slot of a number comes to. -/
inductive Loads (pool : SlotPool) (number : Nat) (loader : Except Failure String) :
    Except Failure String × SlotPool × Bool → Prop where
  | kept (text : String) (held : pool.slots[number]? = some ⟨some text⟩) :
    Loads pool number loader (.ok text, pool, false)
  | filled (text : String) (empty : pool.slots[number]? = some ⟨none⟩) (gives : loader = .ok text) :
    Loads pool number loader (.ok text, ⟨pool.slots.set number ⟨some text⟩, pool.handles⟩, true)
  | failed (failure : Failure) (empty : pool.slots[number]? = some ⟨none⟩)
    (gives : loader = .error failure) : Loads pool number loader (.error failure, pool, true)

theorem loads (known : pool.handles[handle]? = some number) (inside : number < pool.slots.length)
    (loader : Except Failure String) : Loads pool number loader (pool.load handle loader) := by
  obtain ⟨⟨held⟩, found⟩ : ∃ slot, pool.slots[number]? = some slot :=
    ⟨_, List.getElem?_eq_getElem inside⟩
  have same : pool.slots.set number ⟨held⟩ = pool.slots := by
    obtain ⟨_, isSlot⟩ := List.getElem?_eq_some_iff.1 found
    rw [← isSlot, List.set_getElem_self]
  unfold SlotPool.load
  rw [slot_eq known found]
  unfold TableSlot.load setSlot
  rw [known]
  cases held with
  | some text =>
    simp only [same]
    exact .kept text found
  | none =>
    cases loader with
    | ok text => exact .filled text found rfl
    | error failure =>
      simp only [same]
      exact .failed failure found rfl

/-- A table is built from the text that loading gives. -/
theorem table_eq (pool : SlotPool) (handle : Nat) (loader : Except Failure String) :
    pool.table handle loader =
      ((pool.load handle loader).1.bind HashTable.ofText, (pool.load handle loader).2) := by
  unfold SlotPool.table SlotPool.load TableSlot.table
  generalize (pool.slot handle).load loader = result
  obtain ⟨outcome, slot, ran⟩ := result
  cases outcome <;> rfl

/-! ## Numbers of slots and the turns so far -/

/-- The text that a turn gave to the slot of a number. -/
def Turn.gaveTo (handles : List Nat) (number : Nat) (turn : Turn) : Option String :=
  turn.gave.bind fun given => if handles[given.1]? = some number then some given.2 else none

/-- The first text that turns gave to the slot of a number. -/
def firstIn (handles : List Nat) (told : List Turn) (number : Nat) : Option String :=
  told.findSome? (Turn.gaveTo handles number)

/-- The pool is what the turns made of it: handles have one number when clones connect them, and the
slot of a number holds the first text that was given to it. -/
structure Tracks (told : List Turn) (pool : SlotPool) : Prop where
  inside : ∀ handle number : Nat, pool.handles[handle]? = some number → number < pool.slots.length
  givers : ∀ turn ∈ told, ∀ own text, turn.gave = some (own, text) → own < pool.handles.length
  made : ∀ turn ∈ told, ∀ handle, turn.answer = .made handle → handle < pool.handles.length
  edges : ∀ origin handle, ⟨.share origin, .made handle⟩ ∈ told →
    origin < pool.handles.length ∧ pool.handles[origin]? = pool.handles[handle]?
  linked : ∀ left right number : Nat, pool.handles[left]? = some number →
    pool.handles[right]? = some number → Shares told left right
  roots : ∀ left right, ⟨.create, .made left⟩ ∈ told → ⟨.create, .made right⟩ ∈ told →
    pool.handles[left]? = pool.handles[right]? → left = right
  texts : ∀ number < pool.slots.length,
    pool.slots[number]? = some ⟨firstIn pool.handles told number⟩

theorem Shares.append {left right : Nat} (shares : Shares told left right) (more : List Turn) :
    Shares (told ++ more) left right :=
  Relation.EqvGen.mono (fun _ _ => List.mem_append_left more) left right shares

theorem Turn.gaveTo_eq_some {handles : List Nat} :
    turn.gaveTo handles number = some text ↔
      ∃ own, turn.gave = some (own, text) ∧ handles[own]? = some number := by
  unfold Turn.gaveTo
  rw [Option.bind_eq_some_iff]
  constructor
  · rintro ⟨⟨own, given⟩, gave, here⟩
    split at here
    · next known =>
      cases here
      exact ⟨own, gave, known⟩
    · cases here
  · rintro ⟨own, gave, known⟩
    exact ⟨(own, text), gave, if_pos known⟩

theorem Turn.gaveTo_eq_none {handles : List Nat} (quiet : turn.gave = none) (number : Nat) :
    turn.gaveTo handles number = none := by
  unfold Turn.gaveTo
  rw [quiet, Option.bind_none]

/-- What a property of all turns takes when another turn is told. -/
theorem forall_told_append {property : Turn → Prop} (old : ∀ turn ∈ told, property turn)
    (new : property turn) : ∀ other ∈ told ++ [turn], property other :=
  List.forall_mem_append.2 ⟨old, List.forall_mem_singleton.2 new⟩

theorem firstIn_append_single (handles : List Nat) (told : List Turn) (turn : Turn) (number : Nat) :
    firstIn handles (told ++ [turn]) number =
      (firstIn handles told number).or (turn.gaveTo handles number) := by
  unfold firstIn
  rw [List.findSome?_append, List.findSome?_singleton]

/-! ## What a pool that follows its turns says about them -/

namespace Tracks

variable (tracks : Tracks told pool)
include tracks

theorem same_number {left right : Nat} (shares : Shares told left right) :
    pool.handles[left]? = pool.handles[right]? := by
  induction shares with
  | rel origin handle clone => exact (tracks.edges origin handle clone).2
  | refl handle => rfl
  | symm left right _ same => exact same.symm
  | trans left middle right _ _ first second => exact first.trans second

theorem shares_iff (known : pool.handles[handle]? = some number) :
    Shares told own handle ↔ pool.handles[own]? = some number :=
  ⟨fun shares => (tracks.same_number shares).trans known,
    fun same => tracks.linked own handle number same known⟩

theorem fills_iff (known : pool.handles[handle]? = some number) (turn : Turn) (text : String) :
    Fills told handle turn text ↔ turn.gaveTo pool.handles number = some text := by
  unfold Fills
  rw [Turn.gaveTo_eq_some]
  simp only [tracks.shares_iff known]

theorem firstIn_iff (known : pool.handles[handle]? = some number) (first : Option String) :
    pool.slots[number]? = some ⟨first⟩ ↔ firstIn pool.handles told number = first := by
  rw [tracks.texts number (tracks.inside handle number known), Option.some_inj, TableSlot.mk.injEq]

/-- The text in the slot of a handle is the first that was given through handles it shares with. -/
theorem firstText_iff (known : pool.handles[handle]? = some number) (text : String) :
    FirstText told handle text ↔ pool.slots[number]? = some ⟨some text⟩ := by
  rw [tracks.firstIn_iff known, firstIn, List.findSome?_eq_some_iff]
  unfold FirstText
  simp only [tracks.fills_iff known, ← Option.eq_none_iff_forall_ne_some]

theorem loaded_iff (known : pool.handles[handle]? = some number) :
    Loaded told handle ↔ ∃ text, pool.slots[number]? = some ⟨some text⟩ := by
  simp only [tracks.firstIn_iff known, ← Option.isSome_iff_exists]
  rw [firstIn, List.findSome?_isSome_iff]
  unfold Loaded
  simp only [tracks.fills_iff known, Option.isSome_iff_exists]

theorem not_loaded_iff (known : pool.handles[handle]? = some number) :
    ¬Loaded told handle ↔ pool.slots[number]? = some ⟨none⟩ := by
  rw [tracks.loaded_iff known, tracks.firstIn_iff known]
  simp only [tracks.firstIn_iff known, Option.eq_none_iff_forall_ne_some, not_exists]

end Tracks

/-! ## Turns that make a handle -/

theorem tracks_vacant : Tracks [] vacant where
  inside := by simp [vacant]
  givers := by simp
  made := by simp
  edges := by simp
  linked := by simp [vacant]
  roots := by simp
  texts := by simp [vacant]

/-- The last of a list is reached by its number only. -/
theorem known_append_single {handles : List Nat} {last : Nat} :
    (handles ++ [last])[handle]? = some number ↔
      handles[handle]? = some number ∨ handle = handles.length ∧ last = number := by
  rw [List.getElem?_append]
  split
  · next below => simp only [Nat.ne_of_lt below, false_and, or_false]
  · next above =>
    rw [List.getElem?_eq_none (Nat.le_of_not_lt above), List.getElem?_singleton]
    split <;> grind

namespace Tracks

variable (tracks : Tracks told pool)
include tracks

/-- Another handle changes nothing of what was given so far. -/
theorem firstIn_append_handle (last number : Nat) :
    firstIn (pool.handles ++ [last]) told number = firstIn pool.handles told number := by
  unfold firstIn
  rw [← List.head?_filterMap, ← List.head?_filterMap]
  congr 1
  refine List.filterMap_congr fun turn mem => ?_
  unfold Turn.gaveTo
  cases gave : turn.gave with
  | none => rfl
  | some given =>
    have below := tracks.givers turn mem given.1 given.2 gave
    simp only [Option.bind_some, List.getElem?_append_left below]

/-- The turn that makes another handle to the slot of a number, which is an old one or empty. -/
theorem another {call : Call} {last : Nat} {slots : List TableSlot}
    (quiet : (⟨call, .made pool.handles.length⟩ : Turn).gave = none) (inside : last < slots.length)
    (grown : pool.slots.length ≤ slots.length)
    (edge : ∀ origin, call = .share origin → pool.handles[origin]? = some last)
    (link : ∀ handle : Nat, pool.handles[handle]? = some last →
      Shares (told ++ [⟨call, .made pool.handles.length⟩]) handle pool.handles.length)
    (root : call = .create → ∀ handle : Nat, pool.handles[handle]? ≠ some last)
    (texts : ∀ number < slots.length,
      slots[number]? = some ⟨firstIn pool.handles told number⟩) :
    Tracks (told ++ [⟨call, .made pool.handles.length⟩]) ⟨slots, pool.handles ++ [last]⟩ where
  inside handle number known := by
    rcases known_append_single.1 known with old | ⟨_, rfl⟩
    · exact Nat.lt_of_lt_of_le (tracks.inside handle number old) grown
    · exact inside
  givers := by
    simp only [List.length_append, List.length_singleton]
    refine forall_told_append (fun turn mem own text gave => ?_) (fun own text gave => ?_)
    · exact Nat.lt_succ_of_lt (tracks.givers turn mem own text gave)
    · rw [quiet] at gave
      cases gave
  made := by
    simp only [List.length_append, List.length_singleton]
    refine forall_told_append (fun turn mem handle made => ?_) ?_
    · exact Nat.lt_succ_of_lt (tracks.made turn mem handle made)
    · rintro _ ⟨⟩
      exact Nat.lt_succ_self _
  edges origin handle mem := by
    simp only [List.length_append, List.length_singleton]
    rcases List.mem_append.1 mem with old | new
    · obtain ⟨below, same⟩ := tracks.edges origin handle old
      have made := tracks.made _ old handle rfl
      exact ⟨Nat.lt_succ_of_lt below, by
        rw [List.getElem?_append_left below, List.getElem?_append_left made, same]⟩
    · obtain ⟨isShare, rfl⟩ : Call.share origin = call ∧ handle = pool.handles.length := by
        simpa using new
      have known := edge origin isShare.symm
      obtain ⟨below, _⟩ := List.getElem?_eq_some_iff.1 known
      exact ⟨Nat.lt_succ_of_lt below, by
        rw [List.getElem?_append_left below, known, List.getElem?_concat_length]⟩
  linked left right number leftKnown rightKnown := by
    rcases known_append_single.1 leftKnown with leftOld | ⟨rfl, rfl⟩ <;>
      rcases known_append_single.1 rightKnown with rightOld | ⟨rfl, isLast⟩
    · exact (tracks.linked left right number leftOld rightOld).append _
    · exact link left (isLast ▸ leftOld)
    · exact .symm _ _ (link right rightOld)
    · exact .refl _
  roots left right leftMade rightMade same := by
    -- a new cache is one of before, whose number is unchanged, or the one that is made now
    have cases : ∀ handle,
        (⟨.create, .made handle⟩ : Turn) ∈ told ++ [⟨call, .made pool.handles.length⟩] →
        (⟨.create, .made handle⟩ : Turn) ∈ told ∧
            (pool.handles ++ [last])[handle]? = pool.handles[handle]? ∨
          call = .create ∧ handle = pool.handles.length := by
      intro handle mem
      rcases List.mem_append.1 mem with old | new
      · exact .inl ⟨old, List.getElem?_append_left (tracks.made _ old handle rfl)⟩
      · obtain ⟨isCreate, here⟩ : Call.create = call ∧ handle = pool.handles.length := by
          simpa using new
        exact .inr ⟨isCreate.symm, here⟩
    rcases cases left leftMade with ⟨leftOld, leftSame⟩ | ⟨isCreate, rfl⟩ <;>
      rcases cases right rightMade with ⟨rightOld, rightSame⟩ | ⟨isCreate', rfl⟩
    · exact tracks.roots left right leftOld rightOld (leftSame.symm.trans (same.trans rightSame))
    · rw [leftSame, List.getElem?_concat_length] at same
      exact absurd same (root isCreate' left)
    · rw [rightSame, List.getElem?_concat_length] at same
      exact absurd same.symm (root isCreate right)
    · rfl
  texts number below := by
    rw [firstIn_append_single, Turn.gaveTo_eq_none quiet, Option.or_none,
      tracks.firstIn_append_handle, texts number below]

theorem create :
    Tracks (told ++ [⟨.create, .made pool.handles.length⟩])
      ⟨pool.slots ++ [.empty], pool.handles ++ [pool.slots.length]⟩ := by
  have unused : ∀ handle : Nat, pool.handles[handle]? ≠ some pool.slots.length :=
    fun handle known => Nat.lt_irrefl _ (tracks.inside handle _ known)
  -- the number is that of a slot no handle leads to, so no turn gave it a text
  refine tracks.another rfl (by simp) (by simp) (fun _ isShare => by cases isShare)
    (fun handle known => absurd known (unused handle)) (fun _ => unused) fun number below => ?_
  by_cases old : number < pool.slots.length
  · rw [List.getElem?_append_left old, tracks.texts number old]
  · obtain rfl : number = pool.slots.length := by simp at below; omega
    have untouched : firstIn pool.handles told pool.slots.length = none := by
      unfold firstIn
      rw [List.findSome?_eq_none_iff]
      intro turn _
      rw [Option.eq_none_iff_forall_ne_some]
      intro text gave
      obtain ⟨own, _, known⟩ := Turn.gaveTo_eq_some.1 gave
      exact unused own known
    rw [List.getElem?_concat_length, untouched]
    rfl

theorem share (known : pool.handles[handle]? = some number) :
    Tracks (told ++ [⟨.share handle, .made pool.handles.length⟩])
      ⟨pool.slots, pool.handles ++ [number]⟩ := by
  refine tracks.another rfl (tracks.inside handle number known) (Nat.le_refl _) ?edge ?link
    (fun isCreate => by cases isCreate) tracks.texts
  case edge =>
    rintro origin ⟨⟩
    exact known
  case link =>
    intro other same
    have clone : Shares (told ++ [⟨.share handle, .made pool.handles.length⟩]) handle
        pool.handles.length := .rel _ _ (by simp)
    exact .trans _ _ _ ((tracks.linked other handle number same known).append _) clone

/-! ## Turns that ask -/

/-- The turn that asks, and leaves every slot with the text it had or else the one that is given. -/
theorem asked {answer : Answer} {call : Call} {slots : List TableSlot}
    (notMade : ∀ handle, answer ≠ .made handle)
    (givers : ∀ own text, (⟨call, answer⟩ : Turn).gave = some (own, text) →
      own < pool.handles.length)
    (length : slots.length = pool.slots.length)
    (texts : ∀ number < pool.slots.length, slots[number]? =
      some ⟨(firstIn pool.handles told number).or
        ((⟨call, answer⟩ : Turn).gaveTo pool.handles number)⟩) :
    Tracks (told ++ [⟨call, answer⟩]) ⟨slots, pool.handles⟩ where
  inside handle number known := length ▸ tracks.inside handle number known
  givers := forall_told_append tracks.givers givers
  made := forall_told_append tracks.made fun handle made => absurd made (notMade handle)
  edges origin handle mem := by
    rcases List.mem_append.1 mem with old | new
    · exact tracks.edges origin handle old
    · cases List.mem_singleton.1 new
      exact absurd rfl (notMade handle)
  linked left right number leftKnown rightKnown :=
    (tracks.linked left right number leftKnown rightKnown).append _
  roots left right leftMade rightMade same := by
    have old : ∀ handle, (⟨.create, .made handle⟩ : Turn) ∈ told ++ [⟨call, answer⟩] →
        (⟨.create, .made handle⟩ : Turn) ∈ told := by
      intro handle mem
      rcases List.mem_append.1 mem with old | new
      · exact old
      · cases List.mem_singleton.1 new
        exact absurd rfl (notMade handle)
    exact tracks.roots left right (old left leftMade) (old right rightMade) same
  texts number below := by
    rw [firstIn_append_single, texts number (length ▸ below)]

/-- A turn that gives no text leaves the slots as they are. -/
theorem quiet {answer : Answer} {call : Call} (notMade : ∀ handle, answer ≠ .made handle)
    (quiet : (⟨call, answer⟩ : Turn).gave = none) : Tracks (told ++ [⟨call, answer⟩]) pool :=
  tracks.asked notMade (fun own text gave => by rw [quiet] at gave; cases gave) rfl
    fun number below => by
      rw [Turn.gaveTo_eq_none quiet, Option.or_none, tracks.texts number below]

/-- A turn that gives a text to an empty slot fills it. -/
theorem fill {answer : Answer} {call : Call} (notMade : ∀ handle, answer ≠ .made handle)
    (known : pool.handles[handle]? = some number) (empty : pool.slots[number]? = some ⟨none⟩)
    (gave : (⟨call, answer⟩ : Turn).gave = some (handle, text)) :
    Tracks (told ++ [⟨call, answer⟩]) ⟨pool.slots.set number ⟨some text⟩, pool.handles⟩ := by
  refine tracks.asked notMade ?givers List.length_set fun other below => ?texts
  case givers =>
    intro own given isGiven
    obtain ⟨rfl, rfl⟩ : handle = own ∧ text = given := by simpa using gave.symm.trans isGiven
    exact (List.getElem?_eq_some_iff.1 known).1
  case texts =>
    have gaveTo : (⟨call, answer⟩ : Turn).gaveTo pool.handles other =
        if number = other then some text else none := by
      unfold Turn.gaveTo
      rw [gave, Option.bind_some, known]
      simp only [Option.some_inj]
    rw [gaveTo, List.getElem?_set]
    split
    · next here =>
      rw [if_pos (here ▸ below), ← here, (tracks.firstIn_iff known none).1 empty, Option.none_or]
    · rw [Option.or_none, tracks.texts other below]

/-- A turn that loads into a slot leaves the slots with what was given so far. -/
theorem loaded {answer : Answer} {call : Call} (notMade : ∀ handle, answer ≠ .made handle)
    (known : pool.handles[handle]? = some number)
    (gave : (⟨call, answer⟩ : Turn).gave =
      if ran then loader.toOption.map (handle, ·) else none)
    (result : Loads pool number loader (outcome, next, ran)) :
    Tracks (told ++ [⟨call, answer⟩]) next := by
  cases result with
  | kept text held => exact tracks.quiet notMade gave
  | filled text empty gives =>
    subst gives
    exact tracks.fill notMade known empty gave
  | failed failure empty gives =>
    subst gives
    exact tracks.quiet notMade gave

end Tracks

/-- What loading comes to, in terms of what was told before it and of what is told behind it. -/
theorem Loads.tells (result : Loads pool number loader (outcome, next, ran))
    (tracks : Tracks told pool) (after : Tracks before next)
    (known : pool.handles[handle]? = some number) :
    (ran = true ↔ ¬Loaded told handle) ∧
    (∀ text, outcome = .ok text ↔ FirstText before handle text) ∧
    (∀ failure, outcome = .error failure ↔ ran = true ∧ loader = .error failure) ∧
    (∀ failure, outcome = .error failure → ¬Loaded before handle) := by
  have still : next.handles[handle]? = some number := by
    cases result <;> exact known
  rw [tracks.not_loaded_iff known, after.not_loaded_iff still]
  simp only [after.firstText_iff still]
  cases result with
  | kept text held => simp [held]
  | filled text empty gives =>
    have filled : (pool.slots.set number ⟨some text⟩)[number]? = some ⟨some text⟩ :=
      List.getElem?_set_self (List.getElem?_eq_some_iff.1 empty).1
    rw [empty, filled]
    simp [gives]
  | failed failure empty gives => simp [empty, gives]

/-! ## Programs -/

/-- A call through a handle that was made says what `Told` does, and the pool follows. -/
theorem perform_told (tracks : Tracks told pool) (call : Call)
    (made : ∀ handle, call.handle? = some handle → handle < pool.handles.length) :
    Told told ⟨call, (pool.perform call).1⟩ ∧
      Tracks (told ++ [⟨call, (pool.perform call).1⟩]) (pool.perform call).2 ∧
      (pool.perform call).2.handles.length = call.count pool.handles.length := by
  have unused : ∀ turn ∈ told, turn.answer ≠ .made pool.handles.length :=
    fun turn mem isMade => Nat.lt_irrefl _ (tracks.made turn mem _ isMade)
  cases call with
  | create =>
    exact ⟨.create _ unused, tracks.create, by simp [perform, SlotPool.create, Call.count]⟩
  | share handle =>
    have known := List.getElem?_eq_getElem (made handle rfl)
    simp only [perform, SlotPool.share, known]
    exact ⟨.share handle _ unused, tracks.share known, by simp [Call.count]⟩
  | isLoaded handle =>
    have known := List.getElem?_eq_getElem (made handle rfl)
    refine ⟨.isLoaded handle _ ?_, tracks.quiet (fun _ => by simp [perform]) rfl, rfl⟩
    have found := tracks.texts _ (tracks.inside handle _ known)
    rw [slot_eq known found, tracks.loaded_iff known, found]
    simp [TableSlot.isLoaded, Option.isSome_iff_exists]
  | load handle loader =>
    have known := List.getElem?_eq_getElem (made handle rfl)
    have result := loads known (tracks.inside handle _ known) loader
    simp only [perform]
    generalize pool.load handle loader = loaded at result
    obtain ⟨outcome, next, ran⟩ := loaded
    have after : Tracks (told ++ [⟨.load handle loader, .text outcome ran⟩]) next :=
      tracks.loaded (fun _ => nofun) known (by cases ran <;> cases loader <;> rfl) result
    obtain ⟨runs, gives, fails, unloaded⟩ := result.tells tracks after known
    exact ⟨.load handle loader outcome ran runs gives fails unloaded, after,
      by cases result <;> rfl⟩
  | table handle loader =>
    have known := List.getElem?_eq_getElem (made handle rfl)
    have result := loads known (tracks.inside handle _ known) loader
    simp only [perform, table_eq]
    generalize pool.load handle loader = loaded at result
    obtain ⟨outcome, next, ran⟩ := loaded
    have after : Tracks
        (told ++ [⟨.table handle loader, .table (outcome.bind HashTable.ofText) ran⟩]) next :=
      tracks.loaded (fun _ => nofun) known (by cases ran <;> cases loader <;> rfl) result
    obtain ⟨runs, gives, fails, unloaded⟩ := result.tells tracks after known
    refine ⟨.table handle loader _ ran runs (fun text first => ?_)
      (fun failure isRun isError => ?_), after, by cases result <;> rfl⟩
    · rw [(gives text).2 first]
      rfl
    · have failed := (fails failure).2 ⟨isRun, isError⟩
      exact ⟨by rw [failed]; rfl, unloaded failure failed⟩

/-- Every turn of a program says what `Told` does of the turns before it. -/
theorem told_of_split (tracks : Tracks told pool) (calls : List Call)
    (proper : Proper pool.handles.length calls) (front : List Turn) (turn : Turn)
    (back : List Turn) (split : pool.turns calls = front ++ turn :: back) :
    Told (told ++ front) turn := by
  -- the turn of the first call moves from the split to the turns that are told already
  induction calls generalizing pool told front with
  | nil => exact absurd split (by simp [turns])
  | cons call rest inductionHypothesis =>
    obtain ⟨made, proper⟩ := proper
    obtain ⟨here, after, count⟩ := perform_told tracks call made
    cases front with
    | nil =>
      obtain ⟨rfl, _⟩ := List.cons.inj split
      rwa [List.append_nil]
    | cons head front =>
      obtain ⟨rfl, rest⟩ := List.cons.inj split
      rw [List.append_cons]
      exact inductionHypothesis after (count ▸ proper) front rest

/-! ## One text for the whole life -/

/-- Later pools keep the numbers of handles and the texts of slots. -/
structure Keeps (pool later : SlotPool) : Prop where
  handles : ∀ handle number : Nat, pool.handles[handle]? = some number →
    later.handles[handle]? = some number
  texts : ∀ (number : Nat) text, pool.slots[number]? = some ⟨some text⟩ →
    later.slots[number]? = some ⟨some text⟩

theorem Keeps.refl (pool : SlotPool) : Keeps pool pool :=
  ⟨fun _ _ known => known, fun _ _ held => held⟩

theorem Keeps.trans {later last : SlotPool} (first : Keeps pool later) (second : Keeps later last) :
    Keeps pool last where
  handles _ _ known := second.handles _ _ (first.handles _ _ known)
  texts _ _ held := second.texts _ _ (first.texts _ _ held)

theorem Keeps.append (pool : SlotPool) (slots : List TableSlot) (handles : List Nat) :
    Keeps pool ⟨pool.slots ++ slots, pool.handles ++ handles⟩ where
  handles _ _ known := by
    rw [List.getElem?_append_left (List.getElem?_eq_some_iff.1 known).1, known]
  texts _ _ held := by
    rw [List.getElem?_append_left (List.getElem?_eq_some_iff.1 held).1, held]

theorem Loads.keeps (result : Loads pool number loader (outcome, next, ran)) : Keeps pool next := by
  cases result with
  | kept | failed => exact .refl pool
  | filled text empty gives =>
    refine ⟨fun _ _ known => known, fun other old held => ?_⟩
    -- a slot with a text is not the empty one that is filled
    have apart : number ≠ other := by
      rintro rfl
      simp [empty] at held
    rw [List.getElem?_set_ne apart, held]

theorem keeps_perform (tracks : Tracks told pool) (call : Call)
    (made : ∀ handle, call.handle? = some handle → handle < pool.handles.length) :
    Keeps pool (pool.perform call).2 := by
  cases call with
  | create => exact .append pool _ _
  | share handle =>
    simp only [perform, SlotPool.share, List.getElem?_eq_getElem (made handle rfl)]
    simpa using Keeps.append pool [] _
  | isLoaded handle => exact .refl pool
  | load handle loader =>
    have known := List.getElem?_eq_getElem (made handle rfl)
    exact (loads known (tracks.inside handle _ known) loader).keeps
  | table handle loader =>
    have known := List.getElem?_eq_getElem (made handle rfl)
    simp only [perform, table_eq]
    exact (loads known (tracks.inside handle _ known) loader).keeps

/-- A pool that follows all turns of a program and keeps what there was before it. -/
theorem exists_last (tracks : Tracks told pool) (calls : List Call)
    (proper : Proper pool.handles.length calls) :
    ∃ last, Tracks (told ++ pool.turns calls) last ∧ Keeps pool last := by
  induction calls generalizing pool told with
  | nil => exact ⟨pool, by rwa [turns, List.append_nil], .refl pool⟩
  | cons call rest inductionHypothesis =>
    obtain ⟨made, proper⟩ := proper
    obtain ⟨_, after, count⟩ := perform_told tracks call made
    obtain ⟨last, whole, keeps⟩ := inductionHypothesis after (count ▸ proper)
    rw [← List.append_cons] at whole
    exact ⟨last, whole, (keeps_perform tracks call made).trans keeps⟩

/-- The text that loading gives is in the slot behind it. -/
theorem Loads.holds (result : Loads pool number loader (.ok text, next, ran)) :
    next.slots[number]? = some ⟨some text⟩ := by
  cases result with
  | kept _ held => exact held
  | filled _ empty => exact List.getElem?_set_self (List.getElem?_eq_some_iff.1 empty).1

/-- A table is built from the text that is in the slot behind the call. -/
theorem held_of_table {table : HashTable} (known : pool.handles[handle]? = some number)
    (inside : number < pool.slots.length)
    (answer : .table (.ok table) ran = (pool.perform (.table handle loader)).1) :
    ∃ text, (pool.perform (.table handle loader)).2.slots[number]? = some ⟨some text⟩ ∧
      HashTable.ofText text = .ok table := by
  have result := loads known inside loader
  simp only [perform, table_eq] at answer ⊢
  generalize pool.load handle loader = loaded at result answer ⊢
  obtain ⟨_ | text, next, asked⟩ := loaded
  · cases answer
  · obtain ⟨built, _⟩ := Answer.table.inj answer
    exact ⟨text, result.holds, built.symm⟩

/-- Every table is built from the text that comes first over the whole program. -/
theorem table_of_mem (tracks : Tracks told pool) (calls : List Call)
    (proper : Proper pool.handles.length calls) {table : HashTable}
    (mem : ⟨.table handle loader, .table (.ok table) ran⟩ ∈ pool.turns calls) :
    ∃ text, FirstText (told ++ pool.turns calls) handle text ∧
      HashTable.ofText text = .ok table := by
  induction calls generalizing pool told with
  | nil => cases mem
  | cons call rest inductionHypothesis =>
    obtain ⟨made, proper⟩ := proper
    obtain ⟨_, after, count⟩ := perform_told tracks call made
    rw [turns, List.append_cons]
    rcases List.mem_cons.1 mem with here | later
    · obtain ⟨last, whole, keeps⟩ := exists_last after rest (count ▸ proper)
      obtain ⟨rfl, answer⟩ := Turn.mk.inj here
      have known := List.getElem?_eq_getElem (made handle rfl)
      obtain ⟨text, held, built⟩ := held_of_table known (tracks.inside handle _ known) answer
      have still := keeps.handles _ _ ((keeps_perform tracks _ made).handles _ _ known)
      exact ⟨text, (whole.firstText_iff still text).2 (keeps.texts _ _ held), built⟩
    · exact inductionHypothesis after (count ▸ proper) later

/-! ## Slots that make no difference to each other -/

/-- Whether a call asks through a handle of a set, if it asks at all. -/
def Call.within (keep : Nat → Bool) : Call → Bool
  | .create | .share _ => true
  | .isLoaded handle | .load handle _ | .table handle _ => keep handle

/-- Two pools have the same handles, and the same texts behind those of a set. -/
structure Agree (keep : Nat → Bool) (left right : SlotPool) : Prop where
  handles : left.handles = right.handles
  length : left.slots.length = right.slots.length
  slots : ∀ handle number : Nat, left.handles[handle]? = some number → keep handle = true →
    left.slots[number]? = right.slots[number]?

theorem Agree.refl (keep : Nat → Bool) (pool : SlotPool) : Agree keep pool pool :=
  ⟨rfl, rfl, fun _ _ _ _ => rfl⟩

section Agree

variable {keep : Nat → Bool} {right : SlotPool} {call : Call}

theorem Agree.slot (agree : Agree keep pool right) (known : pool.handles[handle]? = some number)
    (inSet : keep handle = true) : pool.slot handle = right.slot handle := by
  unfold SlotPool.slot
  rw [← agree.handles, known]
  simp only [agree.slots handle number known inSet]

theorem Agree.setSlot (agree : Agree keep pool right) (known : pool.handles[handle]? = some number)
    (slot : TableSlot) : Agree keep (pool.setSlot handle slot) (right.setSlot handle slot) := by
  unfold SlotPool.setSlot
  rw [← agree.handles, known]
  refine ⟨rfl, by simp only [List.length_set, agree.length], fun other own otherKnown inSet => ?_⟩
  simp only [List.getElem?_set, agree.length, agree.slots other own otherKnown inSet]

/-- Loading through a handle of the set comes to the same. -/
theorem Agree.load (agree : Agree keep pool right) (known : pool.handles[handle]? = some number)
    (inSet : keep handle = true) (loader : Except Failure String) :
    (pool.load handle loader).1 = (right.load handle loader).1 ∧
      (pool.load handle loader).2.2 = (right.load handle loader).2.2 ∧
      Agree keep (pool.load handle loader).2.1 (right.load handle loader).2.1 := by
  unfold SlotPool.load
  rw [← agree.slot known inSet]
  exact ⟨rfl, rfl, agree.setSlot known _⟩

theorem Loads.outside (result : Loads pool number loader (outcome, next, ran))
    (tracks : Tracks told pool) (agree : Agree keep pool right)
    (known : pool.handles[handle]? = some number)
    (closed : ∀ one other, Shares told one other → keep one = keep other)
    (outside : keep handle = false) : Agree keep next right := by
  cases result with
  | kept | failed => exact agree
  | filled text empty gives =>
    refine ⟨agree.handles, by rw [List.length_set, agree.length], ?_⟩
    intro other own otherKnown inSet
    -- the slot that is filled is not one of the set: clones would connect its handles to it
    have apart : number ≠ own := by
      rintro rfl
      have same := closed handle other (tracks.linked handle other number known otherKnown)
      simp [outside, inSet] at same
    rw [List.getElem?_set_ne apart, agree.slots other own otherKnown inSet]

/-- What is asked through a handle outside of a set that clones do not leave is not seen in it. -/
theorem Agree.outside (tracks : Tracks told pool) (agree : Agree keep pool right)
    (made : ∀ handle, call.handle? = some handle → handle < pool.handles.length)
    (closed : ∀ one other, Shares told one other → keep one = keep other)
    (outside : call.within keep = false) : Agree keep (pool.perform call).2 right := by
  cases call with
  | create | share => cases outside
  | isLoaded handle => exact agree
  | load handle loader =>
    have known := List.getElem?_eq_getElem (made handle rfl)
    exact (loads known (tracks.inside handle _ known) loader).outside tracks agree known closed
      outside
  | table handle loader =>
    have known := List.getElem?_eq_getElem (made handle rfl)
    simp only [perform, table_eq]
    exact (loads known (tracks.inside handle _ known) loader).outside tracks agree known closed
      outside

/-- What is asked through a handle of the set, or makes a handle, comes to the same. -/
theorem Agree.inside (agree : Agree keep pool right)
    (made : ∀ handle, call.handle? = some handle → handle < pool.handles.length)
    (closed : ∀ origin, call = .share origin → keep pool.handles.length = keep origin)
    (inside : call.within keep = true) :
    (pool.perform call).1 = (right.perform call).1 ∧
      Agree keep (pool.perform call).2 (right.perform call).2 := by
  cases call with
  | create =>
    refine ⟨by simp only [perform, SlotPool.create, agree.handles], ?_, ?_, ?_⟩
    · simp only [perform, SlotPool.create, agree.handles, agree.length]
    · simp only [perform, SlotPool.create, List.length_append, agree.length]
    · intro handle number known inSet
      simp only [perform, SlotPool.create, List.getElem?_append, agree.length]
      rcases known_append_single.1 known with old | ⟨_, rfl⟩
      · rw [agree.slots handle number old inSet]
      · rw [agree.length, if_neg (Nat.lt_irrefl _), if_neg (Nat.lt_irrefl _)]
  | share origin =>
    have known := List.getElem?_eq_getElem (made origin rfl)
    simp only [perform, SlotPool.share, ← agree.handles, known]
    refine ⟨trivial, rfl, agree.length, fun handle number isKnown inSet => ?_⟩
    rcases known_append_single.1 isKnown with old | ⟨rfl, rfl⟩
    · exact agree.slots handle number old inSet
    · exact agree.slots origin _ known (closed origin rfl ▸ inSet)
  | isLoaded handle =>
    have known := List.getElem?_eq_getElem (made handle rfl)
    exact ⟨by simp only [perform, agree.slot known inside], agree⟩
  | load handle loader =>
    have known := List.getElem?_eq_getElem (made handle rfl)
    obtain ⟨outcome, ran, after⟩ := agree.load known inside loader
    exact ⟨by simp only [perform, outcome, ran], after⟩
  | table handle loader =>
    have known := List.getElem?_eq_getElem (made handle rfl)
    obtain ⟨outcome, ran, after⟩ := agree.load known inside loader
    simp only [perform, table_eq]
    exact ⟨by rw [outcome, ran], after⟩

end Agree

/-- Two programs, one without what is asked outside of a set, give the same answers inside it. -/
theorem turns_filter {keep : Nat → Bool} {right : SlotPool} (tracks : Tracks told pool)
    (agree : Agree keep pool right) (calls : List Call) (proper : Proper pool.handles.length calls)
    (closed : ∀ one other, Shares (told ++ pool.turns calls) one other → keep one = keep other) :
    right.turns (calls.filter (Call.within keep)) =
      (pool.turns calls).filter fun turn => turn.call.within keep := by
  induction calls generalizing pool right told with
  | nil => rfl
  | cons call rest inductionHypothesis =>
    rw [turns, List.append_cons] at closed
    obtain ⟨made, proper⟩ := proper
    obtain ⟨_, after, count⟩ := perform_told tracks call made
    have closedHere : ∀ one other, Shares (told ++ [⟨call, (pool.perform call).1⟩]) one other →
        keep one = keep other := fun one other shares => closed one other (shares.append _)
    rw [turns]
    cases within : call.within keep with
    | false =>
      rw [List.filter_cons_of_neg (by simp [within]), List.filter_cons_of_neg (by simp [within])]
      exact inductionHypothesis after (agree.outside tracks made (fun one other shares =>
        closedHere one other (shares.append _)) within) (count ▸ proper) closed
    | true =>
      have clone : ∀ origin, call = .share origin → keep pool.handles.length = keep origin := by
        rintro origin rfl
        have known := List.getElem?_eq_getElem (made origin rfl)
        refine closedHere _ _ (.symm _ _ (.rel _ _ (List.mem_append_right _ ?_)))
        simp [perform, SlotPool.share, known]
      obtain ⟨same, agree⟩ := agree.inside made clone within
      rw [List.filter_cons_of_pos within, List.filter_cons_of_pos (by exact within), turns, ← same,
        inductionHypothesis after agree (count ▸ proper) closed]

/-! ## Slots serve one text -/

/-- Handles that share have the same texts given to them. -/
theorem Fills.of_shares {left right : Nat} (fills : Fills told left turn text)
    (shares : Shares told left right) : Fills told right turn text := by
  obtain ⟨own, gave, ownShares⟩ := fills
  exact ⟨own, gave, .trans _ _ _ ownShares shares⟩

theorem FirstText.of_shares {left right : Nat} (first : FirstText told left text)
    (shares : Shares told left right) : FirstText told right text := by
  obtain ⟨front, turn, back, split, fills, unloaded⟩ := first
  exact ⟨front, turn, back, split, fills.of_shares shares,
    fun earlier mem other given => unloaded earlier mem other (given.of_shares (.symm _ _ shares))⟩

/-- A slot has one first text. -/
theorem FirstText.unique {other : String} (tracks : Tracks told pool)
    (first : FirstText told handle text) (second : FirstText told handle other) : text = other := by
  obtain ⟨front, turn, back, rfl, ⟨own, gave, shares⟩, _⟩ := id first
  have below := tracks.givers turn (List.mem_append_right _ List.mem_cons_self) own text gave
  have known : pool.handles[handle]? = some pool.handles[own] :=
    (tracks.same_number shares).symm.trans (List.getElem?_eq_getElem below)
  have firstHeld := (tracks.firstText_iff known text).1 first
  have secondHeld := (tracks.firstText_iff known other).1 second
  simpa using firstHeld.symm.trans secondHeld

/-- In every program that asks through handles it was given, each turn says what `Told` does of the
turns before it.  Clones connect no handles of two new caches.  Around any set of handles that
clones do not leave, what is asked through the others can be left out and no other turn changes.
Tables that are built through handles that share come from one text, the first that a loader
gave. -/
theorem slots_serve_one_text (calls : List Call) (proper : Proper 0 calls) :
    (∀ before turn after, vacant.turns calls = before ++ turn :: after → Told before turn) ∧
    (∀ left right, ⟨.create, .made left⟩ ∈ vacant.turns calls →
      ⟨.create, .made right⟩ ∈ vacant.turns calls → left ≠ right →
      ¬Shares (vacant.turns calls) left right) ∧
    (∀ keep : Nat → Bool,
      (∀ one other, Shares (vacant.turns calls) one other → keep one = keep other) →
      vacant.turns (calls.filter (Call.within keep)) =
        (vacant.turns calls).filter fun turn => turn.call.within keep) ∧
    ∀ left right leftLoader rightLoader leftTable rightTable leftRan rightRan,
      ⟨.table left leftLoader, .table (.ok leftTable) leftRan⟩ ∈ vacant.turns calls →
      ⟨.table right rightLoader, .table (.ok rightTable) rightRan⟩ ∈ vacant.turns calls →
      Shares (vacant.turns calls) left right →
      ∃ text, FirstText (vacant.turns calls) left text ∧ FirstText (vacant.turns calls) right text ∧
        HashTable.ofText text = .ok leftTable ∧ HashTable.ofText text = .ok rightTable := by
  obtain ⟨last, whole, _⟩ := exists_last tracks_vacant calls proper
  rw [List.nil_append] at whole
  refine ⟨fun before turn after split => ?told,
    fun left right leftMade rightMade apart shares => ?apart, fun keep closed => ?independent,
    ?tables⟩
  case told => exact told_of_split tracks_vacant calls proper before turn after split
  case apart =>
    exact apart (whole.roots left right leftMade rightMade (whole.same_number shares))
  case independent =>
    exact turns_filter tracks_vacant (.refl keep vacant) calls proper closed
  case tables =>
    intro left right _ _ leftTable rightTable _ _ leftMem rightMem shares
    obtain ⟨text, leftFirst, leftBuilt⟩ := table_of_mem tracks_vacant calls proper leftMem
    obtain ⟨other, rightFirst, rightBuilt⟩ := table_of_mem tracks_vacant calls proper rightMem
    rw [List.nil_append] at leftFirst rightFirst
    have alsoRight := leftFirst.of_shares shares
    obtain rfl := alsoRight.unique whole rightFirst
    exact ⟨text, leftFirst, alsoRight, leftBuilt, rightBuilt⟩

/-- A clone loads after a failure, and another cache asks later. -/
def mixed : List Call :=
  [.create, .share 0, .load 0 (.error (.fetch "tags" "offline")), .load 1 (.ok "c1c1c1c 1.0.0"),
    .create, .table 0 (.ok "d2d2d2d 1.0.0"), .isLoaded 2, .table 2 (.ok "d2d2d2d 1.0.0")]

/-- The table of its first text. -/
def mixedTable : HashTable := ⟨[("1.0.0", .remembered (.narrowed (.full "c1c1c1c")))]⟩

/-- The first cache keeps to the text of its clone, and the other one is as it is without them. -/
theorem mixed_kept_apart :
    Proper 0 mixed ∧
    Told (vacant.turns (mixed.take 2)) ⟨.load 0 (.error (.fetch "tags" "offline")),
      .text (.error (.fetch "tags" "offline")) true⟩ ∧
    ¬Shares (vacant.turns mixed) 0 2 ∧
    vacant.turns (mixed.filter (Call.within (· == 2))) =
      (vacant.turns mixed).filter (fun turn => turn.call.within (· == 2)) ∧
    ∃ text, FirstText (vacant.turns mixed) 0 text ∧ HashTable.ofText text = .ok mixedTable := by
  have proper : Proper 0 mixed := by simp [Proper, mixed, Call.handle?, Call.count]
  have built : HashTable.ofText "c1c1c1c 1.0.0" = .ok mixedTable := by decide +kernel
  obtain ⟨tells, apart, independent, tables⟩ := slots_serve_one_text mixed proper
  refine ⟨proper, tells _ _ _ rfl, ?_, independent (· == 2) ?_, ?_⟩
  · exact apart 0 2 (List.mem_of_getElem? (i := 0) rfl) (List.mem_of_getElem? (i := 4) rfl)
      (by decide)
  · intro one other shares
    induction shares with
    | rel origin handle clone =>
      have only : origin = 0 ∧ handle = 1 := by
        simpa [mixed, turns, vacant, perform, SlotPool.create, SlotPool.share] using clone
      rw [only.1, only.2]
      rfl
    | refl => rfl
    | symm _ _ _ same => exact same.symm
    | trans _ _ _ _ _ first second => exact first.trans second
  · have asked : ⟨.table 0 (.ok "d2d2d2d 1.0.0"), .table (.ok mixedTable) false⟩ ∈
        vacant.turns mixed := by
      rw [← built]
      exact List.mem_of_getElem? (i := 5) rfl
    obtain ⟨text, first, _, isText, _⟩ := tables 0 0 _ _ _ _ _ _ asked asked (.refl 0)
    exact ⟨text, first, isText⟩

end EoAssembly.SlotPool
