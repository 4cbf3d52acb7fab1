import EoAssembly.Pass.References
import EoAssembly.Proofs.Xml.Attribute

/-!
Contract: where the objects of a document stand.

A placement is an object together with the unbroken chain of objects around it,
its position under its parent, and whether it is a top-level object.  Each
object of the chain is known by what matters to a search for declarations: what
the objects right under it declare, and whether it is abstract.

Owns `Placement` and `Document.placements`, which lists all objects in document
order; how placements change with the tags of objects; and the levels that an
object searches.

Does not own: what moves an object to another place.
-/

namespace EoAssembly

open Pass (ScopeLevel Declared declaredBy? levelOf)

/-- An object around others: whether it is abstract, and what the objects right
under it declare. -/
structure Enclosing where
  isAbstract : Bool
  level : ScopeLevel
  deriving DecidableEq

/-- An object and where it stands.  `around` holds the objects around it as far as
the chain of parents consists of objects, innermost first. -/
structure Placement where
  tag : Xml.Tag
  around : List Enclosing
  /-- The number of objects before it under the same parent. -/
  index : Nat
  atTop : Bool
  deriving DecidableEq

namespace Placement

/-- The object with `change` made to its tag. -/
def mapTag (change : Xml.Tag → Xml.Tag) (placed : Placement) : Placement :=
  { placed with tag := change placed.tag }

/-- What the other objects under the parent declare, then those under the parent of
the parent and so on, and what the other top-level objects declare. -/
def scope (top : ScopeLevel) (placed : Placement) : ScopeLevel :=
  (match placed.around with
    | [] => []
    | innermost :: outer =>
      innermost.level.eraseIdx placed.index ++ outer.flatMap Enclosing.level) ++
    (if placed.atTop then top.eraseIdx placed.index else top)

/-- The levels an object searches, innermost first. -/
def levels (top : ScopeLevel) (placed : Placement) : List ScopeLevel :=
  Pass.levelsFor (placed.around.map Enclosing.level) top placed.atTop placed.index

/-- What an object searches is what is in its scope. -/
theorem flatten_levels (top : ScopeLevel) (placed : Placement) :
    (placed.levels top).flatten = placed.scope top := by
  unfold levels scope Pass.levelsFor Pass.withoutObject
  cases placed.around with
  | nil => simp
  | cons innermost outer => simp [List.flatMap]

end Placement

namespace Document

/-- The tags of all objects of a forest, in document order. -/
def tagsIn (content : Xml.Content) : List Xml.Tag :=
  (content.allNamed objectLabel).map Prod.fst

/-- The tags of all objects, in document order. -/
def objectTags (document : Document) : List Xml.Tag :=
  document.allObjects.map Prod.fst

/-- What the top-level objects declare. -/
def topLevel (document : Document) : ScopeLevel :=
  document.topObjects.map fun object => declaredBy? object.1

/-- An object seen from the objects right under it. -/
def enclosingOf (tag : Xml.Tag) (children : Xml.Content) : Enclosing :=
  ⟨tag.has "abstract", levelOf children⟩

/-- The objects of a forest where they stand.  The first `objects` element, as long
as it is `awaited`, holds the top-level objects. -/
def placementsIn (around : List Enclosing) (atTop awaited : Bool) (index : Nat) :
    Xml.Content → List Placement
  | .nil => []
  | .leaf _ rest => placementsIn around atTop awaited index rest
  | .element tag children rest =>
    if tag.isNamed objectLabel then
      ⟨tag, around, index, atTop⟩ ::
        (placementsIn (enclosingOf tag children :: around) false false 0 children ++
          placementsIn around atTop awaited (index + 1) rest)
    else
      let holdsTop := awaited && tag.isNamed objectsLabel
      placementsIn [] holdsTop false 0 children ++
        placementsIn around atTop (awaited && !holdsTop) index rest

/-- The objects around those under the root. -/
def aroundRoot (document : Document) : List Enclosing :=
  if document.root.tag.isNamed objectLabel then
    [enclosingOf document.root.tag document.root.content]
  else []

/-- All objects where they stand, in document order. -/
def placements (document : Document) : List Placement :=
  let inner := placementsIn document.aroundRoot false true 0 document.root.content
  if document.root.tag.isNamed objectLabel then ⟨document.root.tag, [], 0, false⟩ :: inner
  else inner

/-! ## Single elements -/

section Element

variable {placed : Placement} {around : List Enclosing} {atTop awaited : Bool} {index : Nat}
  {tag : Xml.Tag} {children rest : Xml.Content}

theorem mem_placementsIn_object (isObject : tag.isNamed objectLabel = true) :
    placed ∈ placementsIn around atTop awaited index (.element tag children rest) ↔
      placed = ⟨tag, around, index, atTop⟩ ∨
      placed ∈ placementsIn (enclosingOf tag children :: around) false false 0 children ∨
      placed ∈ placementsIn around atTop awaited (index + 1) rest := by
  simp only [placementsIn, isObject, if_true, List.mem_cons, List.mem_append]

theorem mem_placementsIn_other (noObject : ¬tag.isNamed objectLabel = true) :
    placed ∈ placementsIn around atTop awaited index (.element tag children rest) ↔
      placed ∈ placementsIn [] (awaited && tag.isNamed objectsLabel) false 0 children ∨
      placed ∈ placementsIn around atTop (awaited && !(awaited && tag.isNamed objectsLabel))
        index rest := by
  simp only [placementsIn, noObject, Bool.false_eq_true, if_false, List.mem_append]

theorem levelOf_object (isObject : tag.isNamed objectLabel = true) :
    levelOf (.element tag children rest) = declaredBy? tag :: levelOf rest := by
  simp [levelOf, childObjects, Xml.Content.named, isObject]

theorem levelOf_other (noObject : ¬tag.isNamed objectLabel = true) :
    levelOf (.element tag children rest) = levelOf rest := by
  simp [levelOf, childObjects, Xml.Content.named, noObject]

end Element

/-! ## Every object has one placement -/

theorem placementsIn_tags (content : Xml.Content) (around : List Enclosing)
    (atTop awaited : Bool) (index : Nat) :
    (placementsIn around atTop awaited index content).map Placement.tag = tagsIn content := by
  induction content generalizing around atTop awaited index with
  | nil => rfl
  | leaf node rest inductionHypothesis => exact inductionHypothesis around atTop awaited index
  | element tag children rest innerHypothesis restHypothesis =>
    unfold tagsIn at *
    by_cases object : tag.isNamed objectLabel = true
    · simp [placementsIn, Xml.Content.allNamed, object, innerHypothesis, restHypothesis]
    · simp [placementsIn, Xml.Content.allNamed, object, innerHypothesis, restHypothesis]

theorem placements_tags (document : Document) :
    document.placements.map Placement.tag = document.objectTags := by
  unfold placements objectTags allObjects whole
  by_cases object : document.root.tag.isNamed objectLabel = true
  · simp only [object, if_true, List.map_cons, placementsIn_tags]
    simp [Xml.Content.allNamed, tagsIn, object]
  · simp only [object, Bool.false_eq_true, if_false, placementsIn_tags]
    simp [Xml.Content.allNamed, tagsIn, object]

theorem mem_objectTags {document : Document} {tag : Xml.Tag} :
    tag ∈ document.objectTags ↔ ∃ placed ∈ document.placements, placed.tag = tag := by
  rw [← placements_tags, List.mem_map]

/-! ## Forests one behind the other -/

theorem childObjects_append (content behind : Xml.Content) :
    childObjects (content.append behind) = childObjects content ++ childObjects behind := by
  induction content with
  | nil => rfl
  | leaf node rest inductionHypothesis => exact inductionHypothesis
  | element tag children rest _ restHypothesis =>
    unfold childObjects at *
    by_cases object : tag.isNamed objectLabel = true
    · simp [Xml.Content.append, Xml.Content.named, object, restHypothesis]
    · simp [Xml.Content.append, Xml.Content.named, object, restHypothesis]

theorem placementsIn_append (content behind : Xml.Content) (around : List Enclosing)
    (atTop : Bool) (index : Nat) :
    placementsIn around atTop false index (content.append behind) =
      placementsIn around atTop false index content ++
        placementsIn around atTop false (index + (childObjects content).length) behind := by
  induction content generalizing index with
  | nil => simp [Xml.Content.append, placementsIn, childObjects, Xml.Content.named]
  | leaf node rest inductionHypothesis => exact inductionHypothesis index
  | element tag children rest _ restHypothesis =>
    unfold childObjects at *
    by_cases object : tag.isNamed objectLabel = true
    · simp [Xml.Content.append, placementsIn, Xml.Content.named, object, restHypothesis,
        Nat.add_assoc, Nat.add_comm 1]
    · simp [Xml.Content.append, placementsIn, Xml.Content.named, object, restHypothesis]

/-! ## Objects of a level -/

/-- The objects right under a parent stand there one after the other. -/
theorem childObjects_placed {content : Xml.Content} (around : List Enclosing)
    (atTop awaited : Bool) (index : Nat) :
    ∀ position object, (childObjects content)[position]? = some object →
      ⟨object.1, around, index + position, atTop⟩ ∈
        placementsIn around atTop awaited index content := by
  unfold childObjects
  induction content generalizing awaited index with
  | nil => simp [Xml.Content.named]
  | leaf node rest inductionHypothesis => exact inductionHypothesis awaited index
  | element tag children rest _ restHypothesis =>
    intro position object found
    by_cases isObject : tag.isNamed objectLabel = true
    · simp only [Xml.Content.named, isObject, if_true] at found
      rw [mem_placementsIn_object isObject]
      cases position with
      | zero =>
        simp only [List.getElem?_cons_zero, Option.some.injEq] at found
        subst found
        exact Or.inl rfl
      | succ before =>
        have later := restHypothesis awaited (index + 1) before object found
        rw [Nat.add_assoc, Nat.add_comm 1] at later
        exact Or.inr (Or.inr later)
    · simp only [Xml.Content.named, isObject, Bool.false_eq_true, if_false] at found
      rw [mem_placementsIn_other isObject]
      exact Or.inr (restHypothesis _ index position object found)

theorem mem_levelOf {content : Xml.Content} {entry : Option Declared}
    (member : entry ∈ levelOf content) (around : List Enclosing) (atTop awaited : Bool)
    (index : Nat) :
    ∃ placed ∈ placementsIn around atTop awaited index content,
      placed.around = around ∧ declaredBy? placed.tag = entry := by
  unfold levelOf at member
  obtain ⟨object, among, declares⟩ := List.mem_map.1 member
  obtain ⟨position, found⟩ := List.getElem?_of_mem among
  exact ⟨_, childObjects_placed around atTop awaited index position object found, rfl, declares⟩

/-- What is declared around an object is declared by an object of the forest that is
inside of another one, as far as it is not declared around the forest. -/
theorem placementsIn_enclosing (content : Xml.Content) (around : List Enclosing)
    (atTop awaited : Bool) (index : Nat) :
    ∀ placed ∈ placementsIn around atTop awaited index content,
      ∀ enclosing ∈ placed.around, enclosing ∈ around ∨
        ∀ entry ∈ enclosing.level, ∃ declaring ∈ placementsIn around atTop awaited index content,
          declaring.around ≠ [] ∧ declaredBy? declaring.tag = entry := by
  induction content generalizing around atTop awaited index with
  | nil => simp [placementsIn]
  | leaf node rest inductionHypothesis => exact inductionHypothesis around atTop awaited index
  | element tag children rest innerHypothesis restHypothesis =>
    intro placed member enclosing among
    by_cases isObject : tag.isNamed objectLabel = true
    · simp only [mem_placementsIn_object isObject] at member ⊢
      rcases member with here | inside | behind
      · rw [here] at among
        exact Or.inl among
      · rcases innerHypothesis _ _ _ _ placed inside enclosing among with outer | declared
        · rcases List.mem_cons.1 outer with own | outer
          · refine Or.inr fun entry listed => ?_
            rw [own] at listed
            obtain ⟨declaring, place, parent, declares⟩ := mem_levelOf listed
              (enclosingOf tag children :: around) false false 0
            exact ⟨declaring, Or.inr (Or.inl place), by simp [parent], declares⟩
          · exact Or.inl outer
        · refine Or.inr fun entry listed => ?_
          obtain ⟨declaring, place, rest⟩ := declared entry listed
          exact ⟨declaring, Or.inr (Or.inl place), rest⟩
      · rcases restHypothesis _ _ _ _ placed behind enclosing among with outer | declared
        · exact Or.inl outer
        · refine Or.inr fun entry listed => ?_
          obtain ⟨declaring, place, rest⟩ := declared entry listed
          exact ⟨declaring, Or.inr (Or.inr place), rest⟩
    · simp only [mem_placementsIn_other isObject] at member ⊢
      rcases member with inside | behind
      · rcases innerHypothesis _ _ _ _ placed inside enclosing among with outer | declared
        · simp at outer
        · refine Or.inr fun entry listed => ?_
          obtain ⟨declaring, place, rest⟩ := declared entry listed
          exact ⟨declaring, Or.inl place, rest⟩
      · rcases restHypothesis _ _ _ _ placed behind enclosing among with outer | declared
        · exact Or.inl outer
        · refine Or.inr fun entry listed => ?_
          obtain ⟨declaring, place, rest⟩ := declared entry listed
          exact ⟨declaring, Or.inr place, rest⟩

/-- A top-level object stands at its position among the top-level objects. -/
theorem placementsIn_atTop (content : Xml.Content) (around : List Enclosing)
    (atTop awaited : Bool) (index : Nat) :
    ∀ placed ∈ placementsIn around atTop awaited index content, placed.atTop = true →
      (atTop = true ∧ placed.around = around ∧ ∃ before, placed.index = index + before ∧
        (levelOf content)[before]? = some (declaredBy? placed.tag)) ∨
      (awaited = true ∧ placed.around = [] ∧ ∃ found,
        (content.named objectsLabel).head? = some found ∧
        (levelOf found.2)[placed.index]? = some (declaredBy? placed.tag)) := by
  induction content generalizing around atTop awaited index with
  | nil => simp [placementsIn]
  | leaf node rest inductionHypothesis => exact inductionHypothesis around atTop awaited index
  | element tag children rest innerHypothesis restHypothesis =>
    intro placed member isTop
    by_cases isObject : tag.isNamed objectLabel = true
    · have noList : tag.isNamed objectsLabel = false :=
        Xml.Tag.isPlain_apart (by decide) isObject
      rw [mem_placementsIn_object isObject] at member
      rcases member with here | inside | behind
      · rw [here] at isTop ⊢
        exact Or.inl ⟨isTop, rfl, 0, rfl, by rw [levelOf_object isObject]; rfl⟩
      · rcases innerHypothesis _ _ _ _ placed inside isTop with ⟨wrong, _⟩ | ⟨wrong, _⟩
        · exact absurd wrong (by simp)
        · exact absurd wrong (by simp)
      · rcases restHypothesis _ _ _ _ placed behind isTop with
          ⟨top, same, before, position, entry⟩ | ⟨waits, same, found, first, entry⟩
        · refine Or.inl ⟨top, same, before + 1, by omega, ?_⟩
          rw [levelOf_object isObject]
          exact entry
        · refine Or.inr ⟨waits, same, found, ?_, entry⟩
          simpa [Xml.Content.named, noList] using first
    · rw [mem_placementsIn_other isObject] at member
      rcases member with inside | behind
      · rcases innerHypothesis _ _ _ _ placed inside isTop with
          ⟨top, same, before, position, entry⟩ | ⟨wrong, _⟩
        · simp only [Bool.and_eq_true] at top
          refine Or.inr ⟨top.1, same, (tag, children), ?_, ?_⟩
          · simp [Xml.Content.named, top.2]
          · rw [position, Nat.zero_add]
            exact entry
        · exact absurd wrong (by simp)
      · rcases restHypothesis _ _ _ _ placed behind isTop with
          ⟨top, same, before, position, entry⟩ | ⟨waits, same, found, first, entry⟩
        · refine Or.inl ⟨top, same, before, position, ?_⟩
          rw [levelOf_other isObject]
          exact entry
        · simp only [Bool.and_eq_true, Bool.not_eq_true', Bool.and_eq_false_iff] at waits
          have noList : tag.isNamed objectsLabel = false := by
            rcases waits.2 with wrong | noList
            · rw [waits.1] at wrong
              exact absurd wrong (by simp)
            · exact noList
          refine Or.inr ⟨waits.1, same, found, ?_, entry⟩
          simpa [Xml.Content.named, noList] using first

/-- What is inside the list of top-level objects stands at the top of the document. -/
theorem placementsIn_objects (content : Xml.Content) (around : List Enclosing)
    (atTop : Bool) (index : Nat) {found : Xml.Tag × Xml.Content}
    (first : (content.named objectsLabel).head? = some found) :
    ∀ placed ∈ placementsIn [] true false 0 found.2,
      placed ∈ placementsIn around atTop true index content := by
  induction content generalizing index with
  | nil => simp [Xml.Content.named] at first
  | leaf node rest inductionHypothesis => exact inductionHypothesis index first
  | element tag children rest _ restHypothesis =>
    intro placed member
    by_cases isObject : tag.isNamed objectLabel = true
    · have noList : tag.isNamed objectsLabel = false :=
        Xml.Tag.isPlain_apart (by decide) isObject
      simp only [Xml.Content.named, noList, Bool.false_eq_true, if_false] at first
      rw [mem_placementsIn_object isObject]
      exact Or.inr (Or.inr (restHypothesis (index + 1) first placed member))
    · rw [mem_placementsIn_other isObject]
      by_cases isList : tag.isNamed objectsLabel = true
      · simp only [Xml.Content.named, isList, if_true, List.head?_cons,
          Option.some.injEq] at first
        subst first
        simp only [isList, Bool.and_self]
        exact Or.inl member
      · simp only [Xml.Content.named, isList, Bool.false_eq_true, if_false] at first
        simp only [isList, Bool.and_false, Bool.not_false, Bool.and_true]
        exact Or.inr (restHypothesis index first placed member)

section Entries

variable {document : Document} {placed : Placement}

theorem mem_placements :
    placed ∈ document.placements ↔
      (document.root.tag.isNamed objectLabel = true ∧
        placed = ⟨document.root.tag, [], 0, false⟩) ∨
      placed ∈ placementsIn document.aroundRoot false true 0 document.root.content := by
  unfold placements
  by_cases isObject : document.root.tag.isNamed objectLabel = true
  · simp [isObject]
  · simp [isObject]

/-- A top-level object is the entry at its position among the top-level ones. -/
theorem placements_atTop (member : placed ∈ document.placements) (isTop : placed.atTop = true) :
    placed.around = [] ∧ document.topLevel[placed.index]? = some (declaredBy? placed.tag) := by
  rcases mem_placements.1 member with ⟨_, here⟩ | inside
  · rw [here] at isTop
    exact absurd isTop (by simp)
  · rcases placementsIn_atTop _ _ _ _ _ placed inside isTop with
      ⟨wrong, _⟩ | ⟨_, alone, found, first, entry⟩
    · exact absurd wrong (by simp)
    · refine ⟨alone, ?_⟩
      unfold topLevel topObjects objects?
      rw [first]
      exact entry

/-- Every entry of the top level is an object of the document. -/
theorem mem_topLevel {entry : Option Declared} (listed : entry ∈ document.topLevel) :
    ∃ declaring ∈ document.placements, declaring.around = [] ∧
      declaredBy? declaring.tag = entry := by
  unfold topLevel topObjects objects? at listed
  cases first : (document.root.content.named objectsLabel).head? with
  | none => simp [first] at listed
  | some found =>
    rw [first] at listed
    obtain ⟨declaring, place, alone, declares⟩ := mem_levelOf listed [] true false 0
    refine ⟨declaring, mem_placements.2 (Or.inr ?_), alone, declares⟩
    exact placementsIn_objects _ _ _ 0 first declaring place

/-- Every entry around an object is an object inside of another one. -/
theorem mem_enclosing (member : placed ∈ document.placements) {enclosing : Enclosing}
    (among : enclosing ∈ placed.around) {entry : Option Declared}
    (listed : entry ∈ enclosing.level) :
    ∃ declaring ∈ document.placements, declaring.around ≠ [] ∧
      declaredBy? declaring.tag = entry := by
  rcases mem_placements.1 member with ⟨_, here⟩ | inside
  · rw [here] at among
    exact absurd among (by simp)
  · rcases placementsIn_enclosing _ _ _ _ _ placed inside enclosing among with root | declared
    · unfold aroundRoot at root
      split at root
      · next isObject =>
        rw [List.mem_singleton.1 root] at listed
        obtain ⟨declaring, place, parent, declares⟩ :=
          mem_levelOf listed document.aroundRoot false true 0
        refine ⟨declaring, mem_placements.2 (Or.inr place), ?_, declares⟩
        simp [parent, aroundRoot, isObject]
      · exact absurd root (by simp)
    · obtain ⟨declaring, place, rest⟩ := declared entry listed
      exact ⟨declaring, mem_placements.2 (Or.inr place), rest⟩

/-- What is in the scope of an object is declared by an object of the document. -/
theorem mem_scope (member : placed ∈ document.placements) {entry : Option Declared}
    (listed : entry ∈ placed.scope document.topLevel) :
    ∃ tag ∈ document.objectTags, declaredBy? tag = entry := by
  have object : ∀ declaring ∈ document.placements, declaredBy? declaring.tag = entry →
      ∃ tag ∈ document.objectTags, declaredBy? tag = entry := fun declaring place declares =>
    ⟨declaring.tag, mem_objectTags.2 ⟨declaring, place, rfl⟩, declares⟩
  unfold Placement.scope at listed
  rcases List.mem_append.1 listed with around | top
  · cases enclosed : placed.around with
    | nil => simp [enclosed] at around
    | cons innermost outer =>
      rw [enclosed] at around
      have inLevel : ∃ enclosing ∈ placed.around, entry ∈ enclosing.level := by
        rcases List.mem_append.1 around with own | others
        · exact ⟨innermost, by simp [enclosed], List.mem_of_mem_eraseIdx own⟩
        · obtain ⟨enclosing, among, inside⟩ := List.mem_flatMap.1 others
          exact ⟨enclosing, by simp [enclosed, among], inside⟩
      obtain ⟨enclosing, among, inside⟩ := inLevel
      obtain ⟨declaring, place, _, declares⟩ := mem_enclosing member among inside
      exact object declaring place declares
  · have inTop : entry ∈ document.topLevel := by
      split at top
      · exact List.mem_of_mem_eraseIdx top
      · exact top
    obtain ⟨declaring, place, _, declares⟩ := mem_topLevel inTop
    exact object declaring place declares

end Entries

/-! ## Changing tags where they stand -/

/-- A change of tags that leaves objects where they are and what they declare. -/
structure KeepsPlace (change : Xml.Tag → Xml.Tag) : Prop where
  named : ∀ tag label, (change tag).isNamed label = tag.isNamed label
  declared : ∀ tag, declaredBy? (change tag) = declaredBy? tag
  isAbstract : ∀ tag, (change tag).has "abstract" = tag.has "abstract"

section KeepsPlace

variable {change : Xml.Tag → Xml.Tag}

theorem childObjects_mapNamed (keeps : KeepsPlace change) (content : Xml.Content) :
    childObjects (content.mapNamed objectLabel change) =
      (childObjects content).map fun object =>
        (change object.1, object.2.mapNamed objectLabel change) := by
  induction content with
  | nil => rfl
  | leaf node rest inductionHypothesis => exact inductionHypothesis
  | element tag children rest _ restHypothesis =>
    unfold childObjects at *
    by_cases object : tag.isNamed objectLabel = true
    · simp [Xml.Content.mapNamed, Xml.Content.named, object, keeps.named, restHypothesis]
    · simp [Xml.Content.mapNamed, Xml.Content.named, object, restHypothesis]

theorem levelOf_mapNamed (keeps : KeepsPlace change) (content : Xml.Content) :
    levelOf (content.mapNamed objectLabel change) = levelOf content := by
  simp [levelOf, childObjects_mapNamed keeps, Function.comp_def, keeps.declared]

theorem enclosingOf_mapNamed (keeps : KeepsPlace change) (tag : Xml.Tag)
    (content : Xml.Content) :
    enclosingOf (change tag) (content.mapNamed objectLabel change) = enclosingOf tag content := by
  simp [enclosingOf, levelOf_mapNamed keeps, keeps.isAbstract]

theorem placementsIn_mapNamed (keeps : KeepsPlace change) (content : Xml.Content)
    (around : List Enclosing) (atTop awaited : Bool) (index : Nat) :
    placementsIn around atTop awaited index (content.mapNamed objectLabel change) =
      (placementsIn around atTop awaited index content).map (Placement.mapTag change) := by
  induction content generalizing around atTop awaited index with
  | nil => rfl
  | leaf node rest inductionHypothesis => exact inductionHypothesis around atTop awaited index
  | element tag children rest innerHypothesis restHypothesis =>
    by_cases object : tag.isNamed objectLabel = true
    · simp [Xml.Content.mapNamed, placementsIn, object, keeps.named, innerHypothesis,
        restHypothesis, enclosingOf_mapNamed keeps, Placement.mapTag]
    · simp [Xml.Content.mapNamed, placementsIn, object, innerHypothesis, restHypothesis]

theorem placements_mapObjects (keeps : KeepsPlace change) (document : Document) :
    (document.mapObjects change).placements =
      document.placements.map (Placement.mapTag change) := by
  unfold placements aroundRoot mapObjects whole withWhole
  by_cases object : document.root.tag.isNamed objectLabel = true
  · simp [Xml.Content.mapNamed, object, keeps.named, placementsIn_mapNamed keeps,
      enclosingOf_mapNamed keeps, Placement.mapTag]
  · simp [Xml.Content.mapNamed, object, placementsIn_mapNamed keeps]

theorem named_objects_mapNamed (keeps : KeepsPlace change) (content : Xml.Content) :
    (content.mapNamed objectLabel change).named objectsLabel =
      (content.named objectsLabel).map fun found =>
        (found.1, found.2.mapNamed objectLabel change) := by
  induction content with
  | nil => rfl
  | leaf node rest inductionHypothesis => exact inductionHypothesis
  | element tag children rest _ restHypothesis =>
    by_cases found : tag.isNamed objectsLabel = true
    · simp [Xml.Content.mapNamed, Xml.Content.named, Xml.Tag.objects_not_object found, found,
        restHypothesis]
    · by_cases object : tag.isNamed objectLabel = true
      · simp [Xml.Content.mapNamed, Xml.Content.named, object, found, keeps.named,
          restHypothesis]
      · simp [Xml.Content.mapNamed, Xml.Content.named, object, found, restHypothesis]

theorem objects?_mapObjects (keeps : KeepsPlace change) (document : Document) :
    (document.mapObjects change).objects? =
      document.objects?.map fun found => (found.1, found.2.mapNamed objectLabel change) := by
  unfold objects? mapObjects whole withWhole
  simp [Xml.Content.mapNamed, named_objects_mapNamed keeps]

theorem topObjects_mapObjects (keeps : KeepsPlace change) (document : Document) :
    (document.mapObjects change).topObjects = document.topObjects.map fun object =>
      (change object.1, object.2.mapNamed objectLabel change) := by
  unfold topObjects
  rw [objects?_mapObjects keeps]
  cases document.objects? with
  | none => rfl
  | some found => exact childObjects_mapNamed keeps found.2

theorem topLevel_mapObjects (keeps : KeepsPlace change) (document : Document) :
    (document.mapObjects change).topLevel = document.topLevel := by
  simp [topLevel, topObjects_mapObjects keeps, Function.comp_def, keeps.declared]

theorem objectTags_mapObjects (keeps : KeepsPlace change) (document : Document) :
    (document.mapObjects change).objectTags = document.objectTags.map change := by
  rw [← placements_tags, ← placements_tags, placements_mapObjects keeps]
  simp [Placement.mapTag, Function.comp_def]

end KeepsPlace

/-- Removing a marker keeps objects where they are. -/
theorem keepsPlace_remove {key : String} (notName : key ≠ "name") (notLine : key ≠ "line")
    (notAbstract : key ≠ "abstract") : KeepsPlace fun tag => tag.remove key where
  named _ _ := rfl
  declared tag := by
    simp [declaredBy?, Xml.Tag.get?_remove_other tag notName,
      Xml.Tag.get?_remove_other tag notLine]
  isAbstract tag := Xml.Tag.has_remove_other tag notAbstract

end Document

end EoAssembly
