import EoAssembly.Proofs.Document.Elements
import EoAssembly.Proofs.Pass.Declared

/-!
Contract: a forest in the middle of the moves.

Some elements have left a reference, and one element, which lists the top-level objects, has got
others behind its own.  One more move exchanges one more element for its reference, and every
element that has not moved is still there: with its own parent, and with the positions of the
objects inside of it.

Owns `midway`, how it changes with one more move, and its elements.
-/

namespace EoAssembly.Pass

open Xml (Tag Content)
open Xml.Content (elements keys tops exchanged)
open Document (childObjects)

/-! ## Objects and their parents -/

theorem spotsIn_elements {content : Content} {around : List (Tag × Nat)} {index : Nat}
    {spot : Spot} (member : spot ∈ spotsIn around index content) :
    (spot.tag, spot.content) ∈ content.elements := by
  have named : (spot.tag, spot.content) ∈ content.allNamed objectLabel := by
    rw [← spotsIn_objects content around index]
    exact List.mem_map.2 ⟨spot, member, rfl⟩
  rw [Content.allNamed_eq] at named
  exact (List.mem_filter.1 named).1

/-- The parent of an object is that of the forest, or an element that is no object, or the last
one of the objects around it. -/
theorem spotsIn_parent (content : Content) (around : List (Tag × Nat)) (index : Nat) :
    ∀ spot ∈ spotsIn around index content,
      (spot.around = around ∧ index ≤ spot.index ∧
        (childObjects content)[spot.index - index]? = some (spot.tag, spot.content)) ∨
      (spot.around = [] ∧ ∃ holder ∈ content.elements,
        holder.1.isNamed objectLabel = false ∧ spot.tag ∈ holder.2.tops) ∨
      ∃ parent ∈ spotsIn around index content, spot.around = parent.chain ∧
        (childObjects parent.content)[spot.index]? = some (spot.tag, spot.content) := by
  induction content generalizing around index with
  | nil => simp [spotsIn]
  | leaf node rest inductionHypothesis => exact inductionHypothesis around index
  | element tag children rest innerHypothesis restHypothesis =>
    intro spot member
    by_cases object : tag.isNamed objectLabel = true
    · have first : childObjects (.element tag children rest) =
          (tag, children) :: childObjects rest := by
        simp [childObjects, Content.named, object]
      simp only [spotsIn, object, if_true, List.mem_cons, List.mem_append] at member ⊢
      rcases member with here | inside | later
      · subst here
        exact Or.inl ⟨rfl, Nat.le_refl _, by simp [first]⟩
      · rcases innerHypothesis _ _ spot inside with
          ⟨under, _, place⟩ | ⟨top, holder, among, notObject, standsIn⟩ | ⟨parent, among, rest⟩
        · exact Or.inr (Or.inr ⟨⟨around, tag, index, children⟩, Or.inl rfl, under, place⟩)
        · exact Or.inr (Or.inl ⟨top, holder, by simp [elements, among], notObject, standsIn⟩)
        · exact Or.inr (Or.inr ⟨parent, Or.inr (Or.inl among), rest⟩)
      · rcases restHypothesis _ _ spot later with
          ⟨under, behind, place⟩ | ⟨top, holder, among, notObject, standsIn⟩ |
          ⟨parent, among, rest⟩
        · refine Or.inl ⟨under, by omega, ?_⟩
          rw [first, show spot.index - index = (spot.index - (index + 1)) + 1 by omega]
          exact place
        · exact Or.inr (Or.inl ⟨top, holder, by simp [elements, among], notObject, standsIn⟩)
        · exact Or.inr (Or.inr ⟨parent, Or.inr (Or.inr among), rest⟩)
    · have first : childObjects (.element tag children rest) = childObjects rest := by
        simp [childObjects, Content.named, object]
      simp only [spotsIn, object, Bool.false_eq_true, if_false, List.mem_append] at member ⊢
      rcases member with inside | later
      · rcases innerHypothesis _ _ spot inside with
          ⟨under, _, place⟩ | ⟨top, holder, among, notObject, standsIn⟩ | ⟨parent, among, rest⟩
        · exact Or.inr (Or.inl ⟨under, (tag, children), by simp [elements], by simpa using object,
            (Content.mem_named (List.mem_of_getElem? place)).2.2⟩)
        · exact Or.inr (Or.inl ⟨top, holder, by simp [elements, among], notObject, standsIn⟩)
        · exact Or.inr (Or.inr ⟨parent, Or.inl among, rest⟩)
      · rcases restHypothesis _ _ spot later with
          ⟨under, behind, place⟩ | ⟨top, holder, among, notObject, standsIn⟩ |
          ⟨parent, among, rest⟩
        · exact Or.inl ⟨under, behind, by rw [first]; exact place⟩
        · exact Or.inr (Or.inl ⟨top, holder, by simp [elements, among], notObject, standsIn⟩)
        · exact Or.inr (Or.inr ⟨parent, Or.inr among, rest⟩)

/-- No chain is longer than there are elements. -/
theorem depth_lt {content : Content} {around : List (Tag × Nat)} {index : Nat} :
    ∀ spot ∈ spotsIn around index content,
      spot.depth < around.length + content.elements.length := by
  induction content generalizing around index with
  | nil => simp [spotsIn]
  | leaf node rest inductionHypothesis => exact inductionHypothesis
  | element tag children rest innerHypothesis restHypothesis =>
    intro spot member
    simp only [elements, List.length_cons, List.length_append]
    by_cases object : tag.isNamed objectLabel = true
    · simp only [spotsIn, object, if_true, List.mem_cons, List.mem_append] at member
      rcases member with here | inside | later
      · subst here
        simp only [Spot.depth]
        omega
      · have inner := innerHypothesis spot inside
        rw [List.length_append, List.length_singleton] at inner
        omega
      · have behind := restHypothesis spot later
        omega
    · simp only [spotsIn, object, Bool.false_eq_true, if_false, List.mem_append] at member
      rcases member with inside | later
      · have inner := innerHypothesis spot inside
        rw [List.length_nil] at inner
        omega
      · have behind := restHypothesis spot later
        omega

/-! ## Some references in their places -/

section Forest

variable (left : Nat → Option Tag) (list : Nat) (behind : Content)

/-- The reference that an element has left. -/
def leftBy (tag : Tag) : Option Tag := tag.key.bind left

/-- A forest where the elements that `left` names are exchanged for the references it tells, and
`behind` stands at the end of the element `list`. -/
def midway : Content → Content
  | .nil => .nil
  | .leaf node rest => .leaf node (midway rest)
  | .element tag children rest =>
    match leftBy left tag with
    | some reference => .element reference .nil (midway rest)
    | none =>
      .element tag
        (if tag.key = some list then (midway children).append behind else midway children)
        (midway rest)

/-- What is inside of an element that has not moved. -/
def midwayIn (found : Tag × Content) : Tag × Content :=
  (found.1, if found.1.key = some list then (midway left list behind found.2).append behind
    else midway left list behind found.2)

/-- The elements of a forest that have moved. -/
def movedIn (content : Content) : List (Tag × Content) :=
  content.elements.filter fun found => (leftBy left found.1).isSome

/-- The references of a forest. -/
def leftIn (content : Content) : List (Tag × Content) :=
  content.elements.filterMap fun found =>
    (leftBy left found.1).map fun reference => (reference, .nil)

end Forest

variable {left : Nat → Option Tag} {list : Nat} {behind : Content}

theorem midway_none (content : Content) : midway (fun _ => none) list .nil content = content := by
  induction content with
  | nil => rfl
  | leaf node rest inductionHypothesis => exact congrArg (Content.leaf node) inductionHypothesis
  | element tag children rest innerHypothesis restHypothesis =>
    have stays : leftBy (fun _ => none) tag = none := by
      unfold leftBy
      cases tag.key <;> rfl
    simp only [midway, stays, innerHypothesis, restHypothesis, Xml.Content.append_nil, ite_self]

/-- Without the element `list` it makes no difference what is to stand behind its content. -/
theorem midway_apart {content : Content} (absent : some list ∉ content.keys)
    (other : Content) : midway left list behind content = midway left list other content := by
  induction content with
  | nil => rfl
  | leaf node rest inductionHypothesis =>
    exact congrArg (Content.leaf node) (inductionHypothesis absent)
  | element tag children rest innerHypothesis restHypothesis =>
    simp only [Xml.Content.keys_element, List.mem_cons, List.mem_append, not_or] at absent
    obtain ⟨own, inner, later⟩ := absent
    simp only [midway, Ne.symm own, if_false, innerHypothesis inner, restHypothesis later]

/-! ## One more move -/

/-- References with that of one more element. -/
def leftToo (left : Nat → Option Tag) (key : Nat) (reference : Tag) : Nat → Option Tag :=
  fun other => if other = key then some reference else left other

theorem exchanged_midway {key : Nat} {reference : Tag} (content : Content)
    (stays : left key = none)
    (fresh : ∀ other tag, left other = some tag → tag.key ≠ some key) :
    exchanged key reference (midway left list behind content) =
      midway (leftToo left key reference) list (exchanged key reference behind) content := by
  induction content with
  | nil => rfl
  | leaf node rest inductionHypothesis => exact congrArg (Content.leaf node) inductionHypothesis
  | element tag children rest innerHypothesis restHypothesis =>
    by_cases own : tag.key = some key
    · have before : leftBy left tag = none := by simp [leftBy, own, stays]
      have after : leftBy (leftToo left key reference) tag = some reference := by
        simp [leftBy, own, leftToo]
      simp only [midway, before, after, exchanged, own, if_true, restHypothesis]
    · have same : leftBy (leftToo left key reference) tag = leftBy left tag := by
        unfold leftBy
        cases isKey : tag.key with
        | none => rfl
        | some other =>
          have different : other ≠ key := fun equal => own (by rw [isKey, equal])
          simp [leftToo, different]
      cases gone : leftBy left tag with
      | some before =>
        obtain ⟨other, _, isLeft⟩ := Option.bind_eq_some_iff.1 gone
        have notKey := fresh other before isLeft
        rw [gone] at same
        simp only [midway, gone, same, exchanged, notKey, if_false, restHypothesis]
      | none =>
        rw [gone] at same
        simp only [midway, gone, same, exchanged, own, if_false, restHypothesis]
        split
        · rw [Xml.Content.exchanged_append, innerHypothesis]
        · rw [innerHypothesis]

/-- A forest that has got one more element behind the content of `list`. -/
theorem modifyChildren_midway (more content : Content)
    (fresh : ∀ other tag, left other = some tag → tag.key ≠ some list)
    (absent : some list ∉ behind.keys) :
    (midway left list behind content).modifyChildren list (fun children =>
      children.append more) = midway left list (behind.append more) content := by
  induction content with
  | nil => rfl
  | leaf node rest inductionHypothesis => exact congrArg (Content.leaf node) inductionHypothesis
  | element tag children rest innerHypothesis restHypothesis =>
    cases gone : leftBy left tag with
    | some reference =>
      obtain ⟨other, _, isLeft⟩ := Option.bind_eq_some_iff.1 gone
      have notList := fresh other reference isLeft
      simp only [midway, gone, Xml.Content.modifyChildren, notList, if_false, restHypothesis]
    | none =>
      simp only [midway, gone, Xml.Content.modifyChildren, restHypothesis]
      by_cases own : tag.key = some list
      · simp only [own, if_true]
        rw [Xml.Content.modifyChildren_append, innerHypothesis, Xml.Content.modifyChildren_absent absent,
          Xml.Content.append_assoc]
      · simp only [own, if_false, innerHypothesis]

/-! ## What is there -/

/-- The elements that are there, and those that went with an element that has moved, are the
references and the elements from before. -/
theorem elements_midway (content : Content) :
    ((midway left list behind content).elements ++
      (movedIn left content).flatMap fun found => midwayIn left list behind found ::
        (midwayIn left list behind found).2.elements).Perm
      (leftIn left content ++ (content.elements.map (midwayIn left list behind) ++
        (content.elements.filter fun found => found.1.key == some list).flatMap fun _ =>
          behind.elements)) := by
  rw [List.perm_iff_count]
  intro element
  unfold movedIn leftIn
  induction content with
  | nil => rfl
  | leaf node rest inductionHypothesis => exact inductionHypothesis
  | element tag children rest innerHypothesis restHypothesis =>
    simp only [List.count_append, Xml.Content.elements] at innerHypothesis restHypothesis ⊢
    by_cases own : tag.key = some list
    · cases gone : leftBy left tag with
      | some reference =>
        simp [midway, gone, Xml.Content.elements, List.count_cons, List.count_append, own,
          midwayIn, Xml.Content.elements_append] at innerHypothesis restHypothesis ⊢
        omega
      | none =>
        simp [midway, gone, Xml.Content.elements, List.count_cons, List.count_append, own,
          midwayIn, Xml.Content.elements_append] at innerHypothesis restHypothesis ⊢
        omega
    · cases gone : leftBy left tag with
      | some reference =>
        simp [midway, gone, Xml.Content.elements, List.count_cons, List.count_append, own,
          midwayIn] at innerHypothesis restHypothesis ⊢
        omega
      | none =>
        simp [midway, gone, Xml.Content.elements, List.count_cons, List.count_append, own,
          midwayIn] at innerHypothesis restHypothesis ⊢
        omega

/-- The keys of a forest are from before, or those of references. -/
theorem keys_midway {content : Content} {key : Option Nat}
    (member : key ∈ (midway left list behind content).keys) (absent : some list ∉ content.keys) :
    key ∈ content.keys ∨ ∃ found ∈ leftIn left content, found.1.key = key := by
  obtain ⟨found, among, isKey⟩ := List.mem_map.1 member
  have here := (elements_midway content).subset (List.mem_append_left _ among)
  have none : (content.elements.filter fun found => found.1.key == some list) = [] := by
    refine List.filter_eq_nil_iff.2 fun other inside same => absent ?_
    exact beq_iff_eq.1 same ▸ List.mem_map.2 ⟨other, inside, rfl⟩
  rw [none, List.flatMap_nil, List.append_nil] at here
  rcases List.mem_append.1 here with isLeft | stays
  · exact Or.inr ⟨found, isLeft, isKey⟩
  · obtain ⟨before, inside, same⟩ := List.mem_map.1 stays
    refine Or.inl (List.mem_map.2 ⟨before, inside, ?_⟩)
    rw [← isKey, ← same]
    rfl

/-- A top element that has not moved is still at the top. -/
theorem tops_midway {tag : Tag} {content : Content} (member : tag ∈ content.tops)
    (stays : leftBy left tag = none) : tag ∈ (midway left list behind content).tops := by
  induction content with
  | nil => simp [tops] at member
  | leaf node rest inductionHypothesis => exact inductionHypothesis member
  | element other children rest _ restHypothesis =>
    rcases List.mem_cons.1 member with here | later
    · subst here
      simp [midway, stays, tops]
    · simp only [midway]
      split
      · exact List.mem_cons_of_mem _ (restHypothesis later)
      · exact List.mem_cons_of_mem _ (restHypothesis later)

/-- The objects at the top of a forest are the same, or their references. -/
theorem childObjects_midway (content : Content)
    (objects : ∀ found ∈ content.elements, ∀ reference, leftBy left found.1 = some reference →
      found.1.isNamed objectLabel = true ∧ reference.isNamed objectLabel = true) :
    childObjects (midway left list behind content) = (childObjects content).map fun found =>
      match leftBy left found.1 with
      | some reference => (reference, .nil)
      | none => midwayIn left list behind found := by
  unfold childObjects
  induction content with
  | nil => rfl
  | leaf node rest inductionHypothesis => exact inductionHypothesis objects
  | element tag children rest _ restHypothesis =>
    have restHypothesis := restHypothesis fun found member => objects found
      (List.mem_cons_of_mem _ (List.mem_append_right _ member))
    cases gone : leftBy left tag with
    | some reference =>
      obtain ⟨object, named⟩ := objects (tag, children) List.mem_cons_self reference gone
      simp only at object
      simp [midway, gone, Xml.Content.named, object, named, restHypothesis]
    | none =>
      by_cases object : tag.isNamed objectLabel = true
      · simp [midway, gone, Xml.Content.named, object, restHypothesis, midwayIn]
      · simp [midway, gone, Xml.Content.named, object, restHypothesis]

end EoAssembly.Pass
