import Mathlib.Data.List.Nodup
import EoAssembly.Pass.FloatSteps
import EoAssembly.Proofs.Pass.Midway

/-!
Contract: a document under edit, after some of its nested declarations have moved.

The names, the positions and the chain of objects of a declaration are read as they were before the
first move.  None of them has changed as long as only deeper declarations have moved: the objects
around a declaration have smaller depths, so they have not moved, and an object that has moved
left a reference at its position.

Owns `Marked`, `Underway` and what the queries of an edited document answer.

Does not own: what one more move does.
-/

namespace EoAssembly.Pass

open Xml (Tag Content)
open Xml.Content (elements keys tops exchanged)
open Document (childObjects)

/-! ## Some moves -/

/-- A move that was made: the spot of the declaration, and the key of the reference left behind. -/
abbrev Move := Spot × Nat

/-- The reference that a move leaves. -/
def Move.reference (move : Move) : Tag :=
  { referenceTo (fullName uncounted move.1.chain) move.1.tag with key := some move.2 }

/-- The references that moves leave, by the keys of the declarations. -/
def leftOf (made : List Move) (key : Nat) : Option Tag :=
  (made.find? fun move => move.1.tag.key == some key).map Move.reference

/-- What is inside of a declaration after some moves. -/
def contentOf (made : List Move) (list : Nat) (spot : Spot) : Content :=
  midway (leftOf made) list .nil spot.content

/-- The declarations that have moved. -/
def broughtBy (made : List Move) (list : Nat) : Content :=
  forestOf (made.map fun move => ⟨move.1.depth,
    move.1.tag.set "name" (fullName uncounted move.1.chain), contentOf made list move.1⟩)

/-- The key of an object. -/
def Spot.key (spot : Spot) : Nat := spot.tag.key.getD 0

/-- A document whose elements have different keys, all of them below `bound`; the element that
lists the top-level objects has the key `list`. -/
structure Marked (document : Document) (bound list : Nat) : Prop where
  below : ∀ key ∈ document.whole.keys, ∃ number < bound, key = some number
  distinct : document.whole.keys.Nodup
  listed : ∃ found, document.objects? = some found ∧ found.1.key = some list

/-- What has happened to a document after some moves. -/
structure Underway (document : Document) (bound list : Nat) (made : List Move) (editor : Editor) :
    Prop where
  document_eq : editor.document = document.withWhole
    (midway (leftOf made) list (broughtBy made list) document.whole)
  detached : editor.detached = []
  room : bound ≤ editor.next
  fresh : ∀ move ∈ made, bound ≤ move.2 ∧ move.2 < editor.next
  nested : ∀ move ∈ made, move.1 ∈ nestedOf document
  distinct : (made.map fun move => move.1.tag.key).Nodup

/-- A nested declaration is inside of the root. -/
theorem nested_elements {document : Document} {spot : Spot} (member : spot ∈ nestedOf document) :
    (spot.tag, spot.content) ∈ document.root.content.elements := by
  rw [nestedOf_eq] at member
  exact spotsIn_elements (List.mem_filter.1 member).1

section Marks

variable {document : Document} {bound list : Nat} (marked : Marked document bound list)
include marked

theorem Marked.once (number : Nat) : document.whole.keys.count (some number) ≤ 1 :=
  List.nodup_iff_count_le_one.1 marked.distinct _

theorem Marked.same {one other : Tag × Content} (isOne : one ∈ document.whole.elements)
    (isOther : other ∈ document.whole.elements) (sameKey : one.1.key = other.1.key) :
    one = other := by
  obtain ⟨number, _, oneKey⟩ := marked.below _ (List.mem_map.2 ⟨one, isOne, rfl⟩)
  exact Content.same_element (marked.once number) isOne isOther oneKey (sameKey ▸ oneKey)

theorem Marked.key_eq {spot : Spot} (member : spot ∈ spots document) :
    spot.tag.key = some spot.key ∧ spot.key < bound := by
  obtain ⟨number, small, isKey⟩ :=
    marked.below _ (Content.key_mem_keys (spotsIn_elements member))
  unfold Spot.key
  rw [isKey]
  exact ⟨rfl, small⟩

/-- The element that lists the top-level objects. -/
theorem Marked.exists_list : ∃ found ∈ document.whole.elements, found.1.key = some list ∧
    found.1.isNamed objectsLabel = true ∧ found.1 ∈ document.root.content.tops := by
  obtain ⟨found, isFound, hasKey⟩ := marked.listed
  unfold Document.objects? at isFound
  obtain ⟨member, named⟩ := Content.mem_named (List.mem_of_head? isFound)
  exact ⟨found, by simp [Document.whole, elements, member], hasKey, named⟩

theorem Marked.root_ne_list : document.root.tag.key ≠ some list := by
  obtain ⟨found, _, hasKey, _, top⟩ := marked.exists_list
  have distinct := marked.distinct
  unfold Document.whole at distinct
  rw [Content.keys_element, List.nodup_cons] at distinct
  intro same
  exact distinct.1 (List.mem_append_left _ (same ▸ hasKey ▸ Content.keys_of_tops top))

theorem Marked.nested_ne_list {spot : Spot} (member : spot ∈ nestedOf document) :
    spot.tag.key ≠ some list := by
  obtain ⟨found, inside, hasKey, named, _⟩ := marked.exists_list
  have among : spot ∈ spots document := (List.mem_filter.1 member).1
  intro same
  have equal := marked.same inside (spotsIn_elements among) (hasKey.trans same.symm)
  have object := spotsIn_isNamed _ _ _ spot among
  rw [equal] at named
  rw [Xml.Tag.objects_not_object named] at object
  exact absurd object (by decide)

theorem Marked.list_not_inside {spot : Spot} (member : spot ∈ nestedOf document) :
    some list ∉ spot.content.keys := by
  obtain ⟨found, _, hasKey, _, top⟩ := marked.exists_list
  have once : document.root.content.keys.count (some list) ≤ 1 := by
    have all := marked.once list
    unfold Document.whole at all
    rw [Content.keys_element, List.count_cons, List.count_append] at all
    omega
  exact Content.top_not_inside once top hasKey _ (nested_elements member)

end Marks

theorem leftOf_some {made : List Move} {key : Nat} {reference : Tag}
    (isLeft : leftOf made key = some reference) :
    ∃ move ∈ made, move.1.tag.key = some key ∧ reference = move.reference := by
  obtain ⟨move, isFound, isReference⟩ := Option.map_eq_some_iff.1 isLeft
  exact ⟨move, List.mem_of_find?_eq_some isFound, by simpa using List.find?_some isFound,
    isReference.symm⟩

theorem leftBy_some {made : List Move} {tag reference : Tag}
    (isLeft : leftBy (leftOf made) tag = some reference) :
    ∃ move ∈ made, move.1.tag.key = tag.key ∧ reference = move.reference := by
  obtain ⟨key, isKey, isLeft⟩ := Option.bind_eq_some_iff.1 isLeft
  obtain ⟨move, member, sameKey, isReference⟩ := leftOf_some isLeft
  exact ⟨move, member, sameKey.trans isKey.symm, isReference⟩

theorem leftBy_none {made : List Move} {tag : Tag}
    (apart : ∀ move ∈ made, move.1.tag.key ≠ tag.key) : leftBy (leftOf made) tag = none := by
  cases isLeft : leftBy (leftOf made) tag with
  | none => rfl
  | some reference =>
    obtain ⟨move, member, sameKey, _⟩ := leftBy_some isLeft
    exact absurd sameKey (apart move member)

theorem leftBy_isSome {made : List Move} {move : Move} (member : move ∈ made) {key : Nat}
    (hasKey : move.1.tag.key = some key) : (leftBy (leftOf made) move.1.tag).isSome = true := by
  unfold leftBy leftOf
  rw [hasKey, Option.bind_some, Option.isSome_map, List.find?_isSome]
  exact ⟨move, member, by simp [hasKey]⟩

theorem Move.isNamed_reference (move : Move) : move.reference.isNamed objectLabel = true :=
  isNamed_referenceTo (fullName uncounted move.1.chain) move.1.tag

theorem elements_forestOf (floated : List Floated) : (forestOf floated).elements =
    floated.flatMap fun declaration =>
      (declaration.tag, declaration.content) :: declaration.content.elements := by
  induction floated with
  | nil => rfl
  | cons declaration rest inductionHypothesis =>
    simp [forestOf, elements, inductionHypothesis]

theorem flatMap_cons_perm {α β : Type} (items : List α) (first : α → β) (others : α → List β) :
    (items.flatMap fun item => first item :: others item).Perm
      (items.map first ++ items.flatMap others) := by
  induction items with
  | nil => exact .nil
  | cons item items inductionHypothesis =>
    refine List.Perm.cons (first item) ((inductionHypothesis.append_left (others item)).trans ?_)
    show (others item ++ (items.map first ++ _)).Perm (items.map first ++ (others item ++ _))
    rw [← List.append_assoc, ← List.append_assoc]
    exact List.perm_append_comm.append_right _

/-- The position of a key among elements that have changed. -/
theorem idxOf?_keys {siblings : List (Tag × Content)} {change : Tag × Content → Tag × Content}
    {sought : Tag × Content} {key index : Nat} (place : siblings[index]? = some sought)
    (soughtKey : (change sought).1.key = some key)
    (keyed : ∀ found ∈ siblings, ∃ number, (change found).1.key = some number ∧
      (number = key → found.1.key = some key))
    (nodup : (siblings.map fun found => found.1.key).Nodup) :
    (Editor.keysOf (siblings.map change)).idxOf? key = some index := by
  induction siblings generalizing index with
  | nil => simp at place
  | cons first rest inductionHypothesis =>
    obtain ⟨number, isNumber, onlyThen⟩ := keyed first List.mem_cons_self
    have keys : Editor.keysOf ((first :: rest).map change) =
        number :: Editor.keysOf (rest.map change) := by
      simp [Editor.keysOf, isNumber]
    rw [keys, List.idxOf?_cons]
    cases index with
    | zero =>
      simp only [List.getElem?_cons_zero, Option.some.injEq] at place
      rw [place, soughtKey] at isNumber
      simp [Option.some.inj isNumber]
    | succ before =>
      simp only [List.getElem?_cons_succ] at place
      rw [List.map_cons, List.nodup_cons] at nodup
      have among := List.mem_of_getElem? place
      obtain ⟨same, isSame, soughtOnly⟩ := keyed sought (List.mem_cons_of_mem _ among)
      have original := soughtOnly (Option.some.inj (isSame.symm.trans soughtKey))
      have apart : number ≠ key := fun equal => nodup.1
        (List.mem_map.2 ⟨sought, among, original.trans (onlyThen equal).symm⟩)
      have later := inductionHypothesis place
        (fun found member => keyed found (List.mem_cons_of_mem _ member)) nodup.2
      simp [apart, later]

/-! ## What is found after some moves -/

section State

variable {document : Document} {bound list : Nat} {made : List Move} {editor : Editor}
  (marked : Marked document bound list) (underway : Underway document bound list made editor)
include marked underway

theorem Underway.key_eq {move : Move} (member : move ∈ made) :
    move.1.tag.key = some move.1.key ∧ move.1.key < bound :=
  marked.key_eq (List.mem_filter.1 (underway.nested move member)).1

theorem Underway.root_stays : leftBy (leftOf made) document.root.tag = none := by
  refine leftBy_none fun move member same => ?_
  have inside := Content.key_mem_keys (nested_elements (underway.nested move member))
  have distinct := marked.distinct
  unfold Document.whole at distinct
  rw [Content.keys_element, List.nodup_cons] at distinct
  exact distinct.1 (List.mem_append_left _ (same ▸ inside))

theorem Underway.midway_eq : midway (leftOf made) list (broughtBy made list) document.whole =
    .element document.root.tag
      (midway (leftOf made) list (broughtBy made list) document.root.content) .nil := by
  unfold Document.whole
  simp only [midway, underway.root_stays marked, marked.root_ne_list, if_false]

theorem Underway.whole_eq : editor.document.whole =
    midway (leftOf made) list (broughtBy made list) document.whole := by
  rw [underway.document_eq, underway.midway_eq marked]
  rfl

theorem Underway.root_eq : editor.document.root.tag = document.root.tag := by
  rw [underway.document_eq, underway.midway_eq marked]
  rfl

/-- The elements that have moved. -/
theorem Underway.movedIn_perm : (movedIn (leftOf made) document.whole).Perm
    (made.map fun move => (move.1.tag, move.1.content)) := by
  have nodup : document.whole.elements.Nodup := List.Nodup.of_map _ marked.distinct
  have distinct : (made.map fun move => (move.1.tag, move.1.content)).Nodup := by
    have keys := underway.distinct
    refine List.Nodup.of_map (fun found : Tag × Content => found.1.key) ?_
    rw [List.map_map]
    exact keys
  have standing : ∀ move ∈ made, (move.1.tag, move.1.content) ∈ document.whole.elements :=
    fun move member => spotsIn_elements (List.mem_filter.1 (underway.nested move member)).1
  refine (List.perm_ext_iff_of_nodup (nodup.filter _) distinct).2 fun found => ?_
  rw [List.mem_filter, List.mem_map]
  constructor
  · rintro ⟨among, isMoved⟩
    obtain ⟨reference, isLeft⟩ := Option.isSome_iff_exists.1 isMoved
    obtain ⟨move, member, sameKey, _⟩ := leftBy_some isLeft
    exact ⟨move, member, marked.same (standing move member) among sameKey⟩
  · rintro ⟨move, member, rfl⟩
    exact ⟨standing move member, leftBy_isSome member (underway.key_eq marked member).1⟩

theorem Underway.midwayIn_moved {move : Move} (member : move ∈ made) :
    midwayIn (leftOf made) list (broughtBy made list) (move.1.tag, move.1.content) =
      (move.1.tag, contentOf made list move.1) := by
  have nested := underway.nested move member
  unfold midwayIn contentOf
  simp only [marked.nested_ne_list nested, if_false]
  rw [midway_apart (marked.list_not_inside nested) .nil]

/-- The elements of the document are the references, the elements that have not moved, and those
that have, under their full names. -/
theorem Underway.elements_perm :
    (editor.document.whole.elements ++
      made.map fun move => (move.1.tag, contentOf made list move.1)).Perm
    (leftIn (leftOf made) document.whole ++ (document.whole.elements.map
        (midwayIn (leftOf made) list (broughtBy made list)) ++
      made.map fun move => (move.1.tag.set "name" (fullName uncounted move.1.chain),
        contentOf made list move.1))) := by
  have all := @elements_midway (leftOf made) list (broughtBy made list) document.whole
  rw [← underway.whole_eq marked] at all
  have gone := (underway.movedIn_perm marked).flatMap_right fun found =>
    midwayIn (leftOf made) list (broughtBy made list) found ::
      (midwayIn (leftOf made) list (broughtBy made list) found).2.elements
  have goneContent : (made.map fun move => (move.1.tag, move.1.content)).flatMap (fun found =>
      midwayIn (leftOf made) list (broughtBy made list) found ::
        (midwayIn (leftOf made) list (broughtBy made list) found).2.elements) =
      made.flatMap fun move => (move.1.tag, contentOf made list move.1) ::
        (contentOf made list move.1).elements := by
    rw [List.flatMap_map]
    refine List.flatMap_congr fun move member => ?_
    rw [underway.midwayIn_moved marked member]
  have only : ∃ found, (document.whole.elements.filter fun found =>
      found.1.key == some list) = [found] := by
    obtain ⟨found, among, hasKey, _⟩ := marked.exists_list
    have once := marked.once list
    unfold keys at once
    rw [List.count, List.countP_map] at once
    refine List.length_eq_one_iff.1 (Nat.le_antisymm ?_ (List.length_pos_of_mem
      (List.mem_filter.2 ⟨among, by simp [hasKey]⟩)))
    rw [← List.countP_eq_length_filter]
    exact once
  obtain ⟨found, isOnly⟩ := only
  have brought : (broughtBy made list).elements = made.flatMap fun move =>
      (move.1.tag.set "name" (fullName uncounted move.1.chain), contentOf made list move.1) ::
        (contentOf made list move.1).elements := by
    unfold broughtBy
    rw [elements_forestOf, List.flatMap_map]
  rw [isOnly, List.flatMap_singleton, brought] at all
  rw [goneContent] at gone
  have before := (gone.symm.append_left editor.document.whole.elements).trans all
  have counts := List.perm_iff_count.1 before
  refine List.perm_iff_count.2 fun element => ?_
  have total := counts element
  have goneCount := (flatMap_cons_perm made
    (fun move => (move.1.tag, contentOf made list move.1))
    fun move => (contentOf made list move.1).elements).count_eq element
  have broughtCount := (flatMap_cons_perm made
    (fun move => (move.1.tag.set "name" (fullName uncounted move.1.chain),
      contentOf made list move.1))
    fun move => (contentOf made list move.1).elements).count_eq element
  simp only [List.count_append] at total goneCount broughtCount ⊢
  omega

/-- The keys are those from before and those of the references. -/
theorem Underway.keys_perm : editor.document.whole.keys.Perm
    ((leftIn (leftOf made) document.whole).map (fun found => found.1.key) ++
      document.whole.keys) := by
  have all := (underway.elements_perm marked).map fun found => found.1.key
  simp only [List.map_append, List.map_map, Function.comp_def, midwayIn, Tag.set] at all
  rw [← List.append_assoc] at all
  exact (List.perm_append_right_iff _).1 all

omit marked in
theorem Underway.reference_key {found : Tag × Content}
    (member : found ∈ leftIn (leftOf made) document.whole) :
    ∃ number, found.1.key = some number ∧ bound ≤ number ∧ number < editor.next := by
  obtain ⟨before, _, isLeft⟩ := List.mem_filterMap.1 member
  obtain ⟨reference, isReference, rfl⟩ := Option.map_eq_some_iff.1 isLeft
  obtain ⟨move, among, _, rfl⟩ := leftBy_some isReference
  exact ⟨move.2, rfl, underway.fresh move among⟩

theorem Underway.once {number : Nat} (small : number < bound) :
    editor.document.whole.keys.count (some number) ≤ 1 := by
  rw [(underway.keys_perm marked).count_eq, List.count_append]
  have none : ((leftIn (leftOf made) document.whole).map fun found => found.1.key).count
      (some number) = 0 := by
    refine List.count_eq_zero.2 fun member => ?_
    obtain ⟨found, among, isKey⟩ := List.mem_map.1 member
    obtain ⟨other, otherKey, large, _⟩ := underway.reference_key among
    have equal := Option.some.inj (isKey.symm.trans otherKey)
    omega
  have before := marked.once number
  omega

theorem Underway.next_absent : some editor.next ∉ editor.document.whole.keys := by
  rw [(underway.keys_perm marked).mem_iff, List.mem_append]
  rintro (left | before)
  · obtain ⟨found, among, isKey⟩ := List.mem_map.1 left
    obtain ⟨other, otherKey, _, small⟩ := underway.reference_key among
    have equal := Option.some.inj (isKey.symm.trans otherKey)
    omega
  · obtain ⟨other, small, otherKey⟩ := marked.below _ before
    have equal := Option.some.inj otherKey
    have room := underway.room
    omega

/-- What has not moved is still there. -/
theorem Underway.stays_mem {found : Tag × Content} (among : found ∈ document.whole.elements)
    (stays : leftBy (leftOf made) found.1 = none) :
    midwayIn (leftOf made) list (broughtBy made list) found ∈ editor.document.whole.elements := by
  have there : midwayIn (leftOf made) list (broughtBy made list) found ∈
      editor.document.whole.elements ++
        made.map fun move => (move.1.tag, contentOf made list move.1) := by
    rw [(underway.elements_perm marked).mem_iff]
    exact List.mem_append_right _ (List.mem_append_left _ (List.mem_map.2 ⟨found, among, rfl⟩))
  rcases List.mem_append.1 there with here | moved
  · exact here
  · obtain ⟨move, member, same⟩ := List.mem_map.1 moved
    have tag : move.1.tag = found.1 := congrArg Prod.fst same
    have gone := leftBy_isSome member (underway.key_eq marked member).1
    rw [tag, stays] at gone
    exact absurd gone (by decide)

theorem Underway.find?_eq {found : Tag × Content} {key : Nat}
    (among : found ∈ document.whole.elements) (hasKey : found.1.key = some key)
    (stays : leftBy (leftOf made) found.1 = none) :
    editor.document.whole.find? key =
      some (midwayIn (leftOf made) list (broughtBy made list) found) := by
  obtain ⟨number, small, isNumber⟩ := marked.below _ (List.mem_map.2 ⟨found, among, rfl⟩)
  have equal := Option.some.inj (hasKey.symm.trans isNumber)
  exact Content.find?_once (underway.once marked (by omega))
    (underway.stays_mem marked among stays) hasKey

omit marked in
theorem Underway.forests_eq : editor.forests = [editor.document.whole] := by
  unfold Editor.forests
  rw [underway.detached]

theorem Underway.editor_find? {found : Tag × Content} {key : Nat}
    (among : found ∈ document.whole.elements) (hasKey : found.1.key = some key)
    (stays : leftBy (leftOf made) found.1 = none) :
    editor.find? key = some (midwayIn (leftOf made) list (broughtBy made list) found) := by
  unfold Editor.find?
  rw [underway.forests_eq, List.findSome?_singleton]
  exact underway.find?_eq marked among hasKey stays

theorem Underway.objects {tag reference : Tag}
    (isLeft : leftBy (leftOf made) tag = some reference) (among : ∃ content,
      (tag, content) ∈ document.whole.elements) :
    tag.isNamed objectLabel = true ∧ reference.isNamed objectLabel = true := by
  obtain ⟨move, member, sameKey, rfl⟩ := leftBy_some isLeft
  obtain ⟨content, among⟩ := among
  have standing := (List.mem_filter.1 (underway.nested move member)).1
  have equal := marked.same (spotsIn_elements standing) among sameKey
  have tag := congrArg Prod.fst equal
  simp only at tag
  exact ⟨tag ▸ spotsIn_isNamed _ _ _ move.1 standing, move.isNamed_reference⟩

/-- The parent of an object that has not moved. -/
theorem Underway.parent?_eq {holder : Tag × Content} {tag : Tag} {key : Nat}
    (among : holder ∈ document.whole.elements) (inside : tag ∈ holder.2.tops)
    (hasKey : tag.key = some key) (small : key < bound)
    (holderStays : leftBy (leftOf made) holder.1 = none)
    (stays : leftBy (leftOf made) tag = none) : editor.parent? key = some holder.1 := by
  have standsIn : tag ∈ (midwayIn (leftOf made) list (broughtBy made list) holder).2.tops := by
    have top := @tops_midway _ list (broughtBy made list) _ _ inside stays
    unfold midwayIn
    simp only
    split
    · rw [Content.tops_append]
      exact List.mem_append_left _ top
    · exact top
  unfold Editor.parent?
  rw [underway.forests_eq, List.findSome?_singleton,
    Content.parentOf?_once (underway.once marked small) none
      (underway.stays_mem marked among holderStays) standsIn hasKey]
  rfl

/-- The number of objects before one that has not moved is the same. -/
theorem Underway.idxOf?_eq {parent spot : Spot} (parentAmong : parent ∈ spots document)
    (among : spot ∈ spots document)
    (place : (childObjects parent.content)[spot.index]? = some (spot.tag, spot.content))
    (parentStays : leftBy (leftOf made) parent.tag = none)
    (stays : leftBy (leftOf made) spot.tag = none) :
    (editor.childObjects parent.key).idxOf? spot.key = some spot.index := by
  obtain ⟨parentKey, _⟩ := marked.key_eq parentAmong
  obtain ⟨spotKey, small⟩ := marked.key_eq among
  have standing := spotsIn_elements parentAmong
  have notList : parent.tag.key ≠ some list := by
    obtain ⟨found, inside, hasKey, named, _⟩ := marked.exists_list
    intro same
    have equal := marked.same inside standing (hasKey.trans same.symm)
    have object := spotsIn_isNamed _ _ _ parent parentAmong
    rw [equal] at named
    rw [Xml.Tag.objects_not_object named] at object
    exact absurd object (by decide)
  have children : editor.childObjects parent.key = Editor.keysOf
      (childObjects (midway (leftOf made) list (broughtBy made list) parent.content)) := by
    unfold Editor.childObjects
    rw [underway.editor_find? marked standing parentKey parentStays]
    simp only [midwayIn, notList, if_false]
  have within := Content.elements_inside standing
  have inside : ∀ found ∈ childObjects parent.content, found ∈ document.whole.elements :=
    fun found member => within.subset (Content.mem_named member).1
  rw [children, childObjects_midway _ fun found member reference isLeft =>
    underway.objects marked isLeft ⟨found.2, within.subset member⟩]
  have nodup : ((childObjects parent.content).map fun found => found.1.key).Nodup := by
    refine ((marked.distinct.sublist (within.map _)).sublist (List.Sublist.map _ ?_))
    exact Content.named_sublist objectLabel parent.content
  refine idxOf?_keys place ?_ (fun found member => ?_) nodup
  · simp only [stays]
    exact spotKey
  · -- every child has a key: its own, or that of its reference
    cases isLeft : leftBy (leftOf made) found.1 with
    | some reference =>
      obtain ⟨move, moved, _, rfl⟩ := leftBy_some isLeft
      have large := (underway.fresh move moved).1
      exact ⟨move.2, rfl, fun same => absurd same (by omega)⟩
    | none =>
      obtain ⟨number, _, isKey⟩ := marked.below _ (List.mem_map.2 ⟨found, inside found member, rfl⟩)
      exact ⟨number, isKey, fun same => same ▸ isKey⟩

/-- The parent of an object that has not moved, where none of the objects around it has. -/
theorem Underway.seen {spot : Spot} (among : spot ∈ spots document)
    (stays : leftBy (leftOf made) spot.tag = none)
    (outerStays : ∀ outer ∈ spots document, outer.depth < spot.depth →
      leftBy (leftOf made) outer.tag = none) :
    (spot.around = [] ∧ editor.parentObject? spot.key = none) ∨
    ∃ parent ∈ spots document, spot.around = parent.chain ∧
      editor.parentObject? spot.key = some parent.key ∧
      (editor.childObjects parent.key).idxOf? spot.key = some spot.index := by
  obtain ⟨spotKey, small⟩ := marked.key_eq among
  rcases spotsIn_parent _ _ _ spot among with
    ⟨top, _, place⟩ | ⟨top, holder, holds, notObject, inside⟩ | ⟨parent, holds, under, place⟩
  · -- the object is the root
    refine Or.inl ⟨top, ?_⟩
    have isRoot : spot.tag = document.root.tag := by
      have member := List.mem_of_getElem? place
      unfold childObjects Document.whole at member
      simp only [Content.named] at member
      split at member
      · exact congrArg Prod.fst (List.mem_singleton.1 member)
      · exact absurd member List.not_mem_nil
    have noParent : editor.parent? spot.key = none := by
      unfold Editor.parent?
      rw [underway.forests_eq, List.findSome?_singleton, underway.whole_eq marked,
        underway.midway_eq marked]
      simp [Content.parentOf?, ← isRoot, spotKey]
    simp [Editor.parentObject?, noParent]
  · refine Or.inl ⟨top, ?_⟩
    have holderStays : leftBy (leftOf made) holder.1 = none := by
      cases isLeft : leftBy (leftOf made) holder.1 with
      | none => rfl
      | some reference =>
        have object := (underway.objects marked isLeft ⟨holder.2, holds⟩).1
        rw [notObject] at object
        exact absurd object (by decide)
    have parent := underway.parent?_eq marked holds inside spotKey small holderStays stays
    simp [Editor.parentObject?, parent, notObject]
  · have smaller : parent.depth < spot.depth := by
      unfold Spot.depth
      rw [under, Spot.chain, List.length_append, List.length_singleton]
      omega
    have parentStays := outerStays parent holds smaller
    have isParent := underway.parent?_eq marked (spotsIn_elements holds)
      (Content.mem_named (List.mem_of_getElem? place)).2.2 spotKey small parentStays stays
    refine Or.inr ⟨parent, holds, under, ?_,
      underway.idxOf?_eq marked holds among place parentStays stays⟩
    have object := spotsIn_isNamed _ _ _ parent holds
    unfold Editor.parentObject?
    rw [isParent]
    simp only [Option.filter_some, object, if_true, Option.bind_some, (marked.key_eq holds).1]

theorem Underway.tag?_eq {spot : Spot} (among : spot ∈ spots document)
    (stays : leftBy (leftOf made) spot.tag = none) : editor.tag? spot.key = some spot.tag := by
  unfold Editor.tag?
  rw [underway.editor_find? marked (spotsIn_elements among) (marked.key_eq among).1 stays]
  rfl

/-- Names, positions and chains are read from the document as if nothing had moved. -/
theorem Underway.chainOf_eq {reach : Nat} {spot : Spot} (among : spot ∈ spots document)
    (stays : leftBy (leftOf made) spot.tag = none)
    (outerStays : ∀ outer ∈ spots document, outer.depth < spot.depth →
      leftBy (leftOf made) outer.tag = none) (within : spot.depth ≤ reach) :
    editor.chainOf reach spot.key = namesOf uncounted spot.chain ∧
      editor.depth reach spot.key = spot.depth := by
  induction reach generalizing spot with
  | zero =>
    have around : spot.around = [] := List.eq_nil_of_length_eq_zero (Nat.le_zero.1 within)
    rcases underway.seen marked among stays outerStays with ⟨_, noParent⟩ | ⟨parent, _, under, _⟩
    · simp [Editor.chainOf, Editor.depth, Editor.nameOf, Editor.position, noParent, Spot.chain,
        Spot.depth, around, namesOf, underway.tag?_eq marked among stays]
    · rw [around, Spot.chain] at under
      simp at under
  | succ reach inductionHypothesis =>
    rcases underway.seen marked among stays outerStays with
      ⟨around, noParent⟩ | ⟨parent, holds, under, isParent, place⟩
    · simp [Editor.chainOf, Editor.depth, Editor.nameOf, Editor.position, noParent, Spot.chain,
        Spot.depth, around, namesOf, underway.tag?_eq marked among stays]
    · have deeper : spot.depth = parent.depth + 1 := by
        unfold Spot.depth
        rw [under, Spot.chain, List.length_append, List.length_singleton]
      obtain ⟨chain, depth⟩ := inductionHypothesis holds (outerStays parent holds (by omega))
        (fun outer outerAmong smaller => outerStays outer outerAmong (by omega)) (by omega)
      have name : editor.nameOf spot.key = ownName spot.tag spot.index := by
        simp [Editor.nameOf, Editor.position, isParent, place,
          underway.tag?_eq marked among stays]
      have inside : spot.around.isEmpty = false := by
        rw [under, Spot.chain]
        simp
      constructor
      · simp only [Editor.chainOf, isParent, chain, name]
        rw [show spot.chain = spot.around ++ [(spot.tag, spot.index)] from rfl, namesOf_concat,
          inside, under]
        rfl
      · simp only [Editor.depth, isParent, depth, deeper]

end State

end EoAssembly.Pass
