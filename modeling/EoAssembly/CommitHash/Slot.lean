import EoAssembly.CommitHash.Table

/-!
Contract: one commit hash table text for the life of a process.

Owns:
- `TableSlot`, filled by the first load that succeeds and never again;
- `SlotPool`, the slots of a process behind numbered handles, where a shared
  handle leads to the slot of the handle it was made from.

A loader is given as its outcome; whether it was asked is part of the answer.
-/

namespace EoAssembly

/-- The table text, once it is loaded. -/
structure TableSlot where
  text : Option String
  deriving DecidableEq

namespace TableSlot

/-- A slot before any load. -/
def empty : TableSlot := ⟨none⟩

/-- Whether the text is there. -/
def isLoaded (slot : TableSlot) : Bool := slot.text.isSome

/-- The text of the slot, or else that of the loader, which is kept when it
succeeds; and whether the loader was asked. -/
def load (slot : TableSlot) (loader : Except Failure String) :
    Except Failure String × TableSlot × Bool :=
  match slot.text with
  | some text => (.ok text, slot, false)
  | none =>
    match loader with
    | .ok text => (.ok text, ⟨some text⟩, true)
    | .error failure => (.error failure, slot, true)

/-- The table built from the text of the slot or of the loader. -/
def table (slot : TableSlot) (loader : Except Failure String) :
    Except Failure HashTable × TableSlot × Bool :=
  match slot.load loader with
  | (.ok text, next, asked) => (HashTable.ofText text, next, asked)
  | (.error failure, next, asked) => (.error failure, next, asked)

end TableSlot

/-- Slots, and for each handle the number of its slot. -/
structure SlotPool where
  slots : List TableSlot
  handles : List Nat
  deriving DecidableEq

namespace SlotPool

/-- A pool with one handle to one empty slot. -/
def single : SlotPool := ⟨[.empty], [0]⟩

/-- The slot behind a handle; an unknown handle has an empty one. -/
def slot (pool : SlotPool) (handle : Nat) : TableSlot :=
  match pool.handles[handle]? with
  | some number => (pool.slots[number]?).getD .empty
  | none => .empty

/-- The pool with another slot behind a handle and all that share it. -/
def setSlot (pool : SlotPool) (handle : Nat) (slot : TableSlot) : SlotPool :=
  match pool.handles[handle]? with
  | some number => { pool with slots := pool.slots.set number slot }
  | none => pool

/-- Adds a handle to a slot of its own; the answer is its number. -/
def create (pool : SlotPool) : Nat × SlotPool :=
  (pool.handles.length, ⟨pool.slots ++ [.empty], pool.handles ++ [pool.slots.length]⟩)

/-- Adds a handle to the slot of another handle; the answer is its number. -/
def share (pool : SlotPool) (handle : Nat) : Nat × SlotPool :=
  match pool.handles[handle]? with
  | some number => (pool.handles.length, { pool with handles := pool.handles ++ [number] })
  | none => pool.create

/-- Loads through a handle. -/
def load (pool : SlotPool) (handle : Nat) (loader : Except Failure String) :
    Except Failure String × SlotPool × Bool :=
  let (outcome, slot, asked) := (pool.slot handle).load loader
  (outcome, pool.setSlot handle slot, asked)

/-- Builds a table through a handle. -/
def table (pool : SlotPool) (handle : Nat) (loader : Except Failure String) :
    Except Failure HashTable × SlotPool × Bool :=
  let (outcome, slot, asked) := (pool.slot handle).table loader
  (outcome, pool.setSlot handle slot, asked)

end SlotPool

end EoAssembly
