/-!
Contract: finite maps and sets as lists in ascending order of their keys.

A list of items with a key each is kept strictly ascending, so that equal maps
are equal lists and a walk visits them in order.  Owns `put`, `find?`, `ofList`
and the invariant `Ascending`.
-/

namespace EoAssembly.Ordered

universe u

variable {α : Type u}

/-- The list with `item` in place of the one with its key, or at the place of its key. -/
def put (key : α → String) (item : α) : List α → List α
  | [] => [item]
  | other :: rest =>
    if key item < key other then item :: other :: rest
    else if key item = key other then item :: rest
    else other :: put key item rest

/-- The first item with a key. -/
def find? (key : α → String) (name : String) (items : List α) : Option α :=
  items.find? fun item => key item == name

/-- Whether an item has a key. -/
def has (key : α → String) (name : String) (items : List α) : Bool :=
  items.any fun item => key item == name

/-- The items of a list in order; of two with one key the later one stays. -/
def ofList (key : α → String) (items : List α) : List α :=
  items.foldl (fun sorted item => put key item sorted) []

/-- Keys grow from each item to all that follow it. -/
def Ascending (key : α → String) (items : List α) : Prop :=
  items.Pairwise fun left right => key left < key right

/-- A set of names in ascending order. -/
def names (items : List String) : List String :=
  ofList id items

/-- The value of a name in a list of pairs in ascending order. -/
def value? {β : Type u} (name : String) (pairs : List (String × β)) : Option β :=
  pairs.lookup name

end EoAssembly.Ordered
