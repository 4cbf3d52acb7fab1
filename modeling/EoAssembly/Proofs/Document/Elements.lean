import EoAssembly.Document.Editor

/-!
Contract: the elements of a forest, found by their keys.

A key that one element of a forest carries leads to that element, to its content and to its
parent; one that no element carries changes nothing.  An element put before another one that is
then taken out stands in its place.

Owns `elements`, `keys`, `tops` and `exchanged`, and the laws of the queries and the edits of
forests over them.
-/

namespace EoAssembly.Xml.Content

/-- All elements of a forest with their content, in document order. -/
def elements : Content → List (Tag × Content)
  | .nil => []
  | .leaf _ rest => rest.elements
  | .element tag children rest => (tag, children) :: (children.elements ++ rest.elements)

/-- The keys of all elements. -/
def keys (content : Content) : List (Option Nat) := content.elements.map fun found => found.1.key

/-- The tags at the top of a forest. -/
def tops : Content → List Tag
  | .nil => []
  | .leaf _ rest => rest.tops
  | .element tag _ rest => tag :: rest.tops

/-- A forest with an empty element in the place of the one with a key. -/
def exchanged (key : Nat) (tag : Tag) : Content → Content
  | .nil => .nil
  | .leaf node rest => .leaf node (exchanged key tag rest)
  | .element other children rest =>
    if other.key = some key then .element tag .nil (exchanged key tag rest)
    else .element other (exchanged key tag children) (exchanged key tag rest)

variable {key : Nat} {tag : Tag} {content : Content}

@[simp] theorem keys_nil : keys .nil = [] := rfl

@[simp] theorem keys_leaf (node : Leaf) (rest : Content) : (Content.leaf node rest).keys = rest.keys :=
  rfl

@[simp] theorem keys_element (tag : Tag) (children rest : Content) :
    (Content.element tag children rest).keys = tag.key :: (children.keys ++ rest.keys) := by
  simp [keys, elements]

theorem elements_append (content behind : Content) :
    (content.append behind).elements = content.elements ++ behind.elements := by
  induction content with
  | nil => rfl
  | leaf node rest inductionHypothesis => exact inductionHypothesis
  | element tag children rest _ restHypothesis => simp [append, elements, restHypothesis]

theorem append_assoc (first second third : Content) :
    (first.append second).append third = first.append (second.append third) := by
  induction first with
  | nil => rfl
  | leaf node rest inductionHypothesis => exact congrArg (Content.leaf node) inductionHypothesis
  | element tag children rest _ restHypothesis =>
    exact congrArg (Content.element tag children) restHypothesis

@[simp] theorem append_nil (content : Content) : content.append .nil = content := by
  induction content with
  | nil => rfl
  | leaf node rest inductionHypothesis => exact congrArg (Content.leaf node) inductionHypothesis
  | element tag children rest _ restHypothesis =>
    exact congrArg (Content.element tag children) restHypothesis

theorem modifyChildren_append (change : Content → Content) (first second : Content) :
    (first.append second).modifyChildren key change =
      (first.modifyChildren key change).append (second.modifyChildren key change) := by
  induction first with
  | nil => rfl
  | leaf node rest inductionHypothesis => exact congrArg (Content.leaf node) inductionHypothesis
  | element tag children rest _ restHypothesis =>
    simp only [append, modifyChildren, restHypothesis]

theorem tops_append (content behind : Content) :
    (content.append behind).tops = content.tops ++ behind.tops := by
  induction content with
  | nil => rfl
  | leaf node rest inductionHypothesis => exact inductionHypothesis
  | element tag children rest _ restHypothesis => simp [append, tops, restHypothesis]

theorem keys_of_tops (member : tag ∈ content.tops) : tag.key ∈ content.keys := by
  induction content with
  | nil => simp [tops] at member
  | leaf node rest inductionHypothesis => exact inductionHypothesis member
  | element other children rest _ restHypothesis =>
    rw [keys_element]
    rcases List.mem_cons.1 member with here | behind
    · rw [here]
      exact List.mem_cons_self
    · exact List.mem_cons_of_mem _ (List.mem_append_right _ (restHypothesis behind))

theorem key_mem_keys {children : Content} (member : (tag, children) ∈ content.elements) :
    tag.key ∈ content.keys :=
  List.mem_map.2 ⟨(tag, children), member, rfl⟩

/-- What is inside of an element is inside of the forest. -/
theorem elements_inside {children : Content} (member : (tag, children) ∈ content.elements) :
    children.elements.Sublist content.elements := by
  induction content with
  | nil => simp [elements] at member
  | leaf node rest inductionHypothesis => exact inductionHypothesis member
  | element other inner rest innerHypothesis restHypothesis =>
    refine List.Sublist.trans ?_ (List.sublist_cons_self _ _)
    rcases List.mem_cons.1 member with here | below
    · rw [(Prod.mk.inj here).2]
      exact List.sublist_append_left _ _
    · rcases List.mem_append.1 below with inside | behind
      · exact (innerHypothesis inside).trans (List.sublist_append_left _ _)
      · exact (restHypothesis behind).trans (List.sublist_append_right _ _)

/-! ## Elements of a name -/

theorem allNamed_eq (label : String) (content : Content) :
    content.allNamed label = content.elements.filter fun found => found.1.isNamed label := by
  induction content with
  | nil => rfl
  | leaf node rest inductionHypothesis => exact inductionHypothesis
  | element tag children rest innerHypothesis restHypothesis =>
    simp only [allNamed, elements, List.filter_cons, List.filter_append, innerHypothesis,
      restHypothesis]
    split <;> rfl

/-- A top element of some name. -/
theorem mem_named {content : Content} {label : String} {found : Tag × Content}
    (member : found ∈ content.named label) :
    found ∈ content.elements ∧ found.1.isNamed label = true ∧ found.1 ∈ content.tops := by
  induction content with
  | nil => simp [named] at member
  | leaf node rest inductionHypothesis => exact inductionHypothesis member
  | element tag children rest _ restHypothesis =>
    have behind : found ∈ rest.named label → found ∈ (Content.element tag children rest).elements ∧
        found.1.isNamed label = true ∧ found.1 ∈ (Content.element tag children rest).tops := by
      intro later
      obtain ⟨among, named, top⟩ := restHypothesis later
      exact ⟨List.mem_cons_of_mem _ (List.mem_append_right _ among), named,
        List.mem_cons_of_mem _ top⟩
    simp only [named] at member
    split at member
    next isNamed =>
      rcases List.mem_cons.1 member with here | later
      · rw [here]
        exact ⟨List.mem_cons_self, isNamed, List.mem_cons_self⟩
      · exact behind later
    next => exact behind member

theorem named_sublist (label : String) (content : Content) :
    (content.named label).Sublist content.elements := by
  induction content with
  | nil => exact .slnil
  | leaf node rest inductionHypothesis => exact inductionHypothesis
  | element tag children rest _ restHypothesis =>
    have later := restHypothesis.trans (List.sublist_append_right children.elements rest.elements)
    simp only [named, elements]
    split
    · exact later.cons_cons _
    · exact later.cons _

/-! ## A key that is not there -/

section Absent

variable (absent : some key ∉ content.keys)
include absent

theorem find?_absent : content.find? key = none := by
  induction content with
  | nil => rfl
  | leaf node rest inductionHypothesis => exact inductionHypothesis absent
  | element other children rest innerHypothesis restHypothesis =>
    simp only [keys_element, List.mem_cons, List.mem_append, not_or] at absent
    obtain ⟨own, inner, later⟩ := absent
    simp only [find?, Ne.symm own, if_false, innerHypothesis inner, restHypothesis later]

theorem parentOf?_absent (parent : Option Tag) : content.parentOf? key parent = none := by
  induction content generalizing parent with
  | nil => rfl
  | leaf node rest inductionHypothesis => exact inductionHypothesis absent parent
  | element other children rest innerHypothesis restHypothesis =>
    simp only [keys_element, List.mem_cons, List.mem_append, not_or] at absent
    obtain ⟨own, inner, later⟩ := absent
    simp only [parentOf?, Ne.symm own, if_false, innerHypothesis inner, restHypothesis later]

theorem modifyTag_absent (change : Tag → Tag) : content.modifyTag key change = content := by
  induction content with
  | nil => rfl
  | leaf node rest inductionHypothesis =>
    exact congrArg (Content.leaf node) (inductionHypothesis absent)
  | element other children rest innerHypothesis restHypothesis =>
    simp only [keys_element, List.mem_cons, List.mem_append, not_or] at absent
    obtain ⟨own, inner, later⟩ := absent
    simp only [modifyTag, Ne.symm own, if_false, innerHypothesis inner, restHypothesis later]

theorem modifyChildren_absent (change : Content → Content) :
    content.modifyChildren key change = content := by
  induction content with
  | nil => rfl
  | leaf node rest inductionHypothesis =>
    exact congrArg (Content.leaf node) (inductionHypothesis absent)
  | element other children rest innerHypothesis restHypothesis =>
    simp only [keys_element, List.mem_cons, List.mem_append, not_or] at absent
    obtain ⟨own, inner, later⟩ := absent
    simp only [modifyChildren, Ne.symm own, if_false, innerHypothesis inner, restHypothesis later]

theorem without_absent : content.without key = content := by
  induction content with
  | nil => rfl
  | leaf node rest inductionHypothesis =>
    exact congrArg (Content.leaf node) (inductionHypothesis absent)
  | element other children rest innerHypothesis restHypothesis =>
    simp only [keys_element, List.mem_cons, List.mem_append, not_or] at absent
    obtain ⟨own, inner, later⟩ := absent
    simp only [without, Ne.symm own, if_false, innerHypothesis inner, restHypothesis later]

theorem insertedBefore_absent (inner : Content) :
    insertedBefore key tag inner content = content := by
  induction content with
  | nil => rfl
  | leaf node rest inductionHypothesis =>
    exact congrArg (Content.leaf node) (inductionHypothesis absent)
  | element other children rest innerHypothesis restHypothesis =>
    simp only [keys_element, List.mem_cons, List.mem_append, not_or] at absent
    obtain ⟨own, below, later⟩ := absent
    simp only [insertedBefore, Ne.symm own, if_false, innerHypothesis below,
      restHypothesis later]

end Absent

/-! ## A key of one element -/

/-- The elements with one key are one, if the key is there at most once. -/
theorem same_element (once : content.keys.count (some key) ≤ 1) {one other : Tag × Content}
    (isOne : one ∈ content.elements) (isOther : other ∈ content.elements)
    (oneKey : one.1.key = some key) (otherKey : other.1.key = some key) : one = other := by
  have few : (content.elements.filter fun found => found.1.key == some key).length ≤ 1 := by
    rw [← List.countP_eq_length_filter]
    unfold keys List.count at once
    rw [List.countP_map] at once
    exact once
  have first : one ∈ content.elements.filter fun found => found.1.key == some key :=
    List.mem_filter.2 ⟨isOne, by simp [oneKey]⟩
  have second : other ∈ content.elements.filter fun found => found.1.key == some key :=
    List.mem_filter.2 ⟨isOther, by simp [otherKey]⟩
  obtain ⟨only, isOnly⟩ := List.length_eq_one_iff.1
    (Nat.le_antisymm few (List.length_pos_of_mem first))
  rw [isOnly, List.mem_singleton] at first second
  rw [first, second]

theorem find?_mem {found : Tag × Content} (isFound : content.find? key = some found) :
    found ∈ content.elements ∧ found.1.key = some key := by
  induction content generalizing found with
  | nil => simp [find?] at isFound
  | leaf node rest inductionHypothesis => exact inductionHypothesis isFound
  | element other children rest innerHypothesis restHypothesis =>
    simp only [find?] at isFound
    split at isFound
    next own =>
      rw [← Option.some.inj isFound]
      exact ⟨List.mem_cons_self, own⟩
    next =>
      split at isFound
      next inner isInner =>
        rw [isFound] at isInner
        obtain ⟨inside, hasKey⟩ := innerHypothesis isInner
        exact ⟨List.mem_cons_of_mem _ (List.mem_append_left _ inside), hasKey⟩
      next =>
        obtain ⟨behind, hasKey⟩ := restHypothesis isFound
        exact ⟨List.mem_cons_of_mem _ (List.mem_append_right _ behind), hasKey⟩

theorem find?_isSome (present : some key ∈ content.keys) : (content.find? key).isSome = true := by
  induction content with
  | nil => simp at present
  | leaf node rest inductionHypothesis => exact inductionHypothesis present
  | element other children rest innerHypothesis restHypothesis =>
    rw [keys_element, List.mem_cons, List.mem_append] at present
    simp only [find?]
    split
    next => rfl
    next notOwn =>
      split
      next => rfl
      next notInner =>
        rcases present with own | inner | later
        · exact absurd own.symm notOwn
        · simp [notInner] at innerHypothesis
          exact absurd inner innerHypothesis
        · exact restHypothesis later

/-- The only element with a key is found by it. -/
theorem find?_once (once : content.keys.count (some key) ≤ 1) {children : Content}
    (member : (tag, children) ∈ content.elements) (hasKey : tag.key = some key) :
    content.find? key = some (tag, children) := by
  have present : some key ∈ content.keys := hasKey ▸ key_mem_keys member
  obtain ⟨found, isFound⟩ := Option.isSome_iff_exists.1 (find?_isSome present)
  obtain ⟨among, foundKey⟩ := find?_mem isFound
  rw [isFound, same_element once among member foundKey hasKey]

theorem parentOf?_top (once : content.keys.count (some key) ≤ 1) (parent : Option Tag)
    (member : tag ∈ content.tops) (hasKey : tag.key = some key) :
    content.parentOf? key parent = some parent := by
  induction content with
  | nil => simp [tops] at member
  | leaf node rest inductionHypothesis => exact inductionHypothesis once member
  | element other children rest _ restHypothesis =>
    rw [keys_element, List.count_cons, List.count_append] at once
    simp only [parentOf?]
    split
    next => rfl
    next notOwn =>
      have behind : tag ∈ rest.tops := by
        rcases List.mem_cons.1 member with here | behind
        · exact absurd (here ▸ hasKey) notOwn
        · exact behind
      have later : 0 < rest.keys.count (some key) :=
        List.count_pos_iff.2 (hasKey ▸ keys_of_tops behind)
      have inner : some key ∉ children.keys := List.count_eq_zero.1 (by omega)
      rw [parentOf?_absent inner]
      exact restHypothesis (by omega) behind

/-- The parent of the only element with a key is the one in whose content it is at the top. -/
theorem parentOf?_once (once : content.keys.count (some key) ≤ 1) (parent : Option Tag)
    {holder : Tag} {children : Content} (member : (holder, children) ∈ content.elements)
    (inside : tag ∈ children.tops) (hasKey : tag.key = some key) :
    content.parentOf? key parent = some (some holder) := by
  have within : some key ∈ children.keys := hasKey ▸ keys_of_tops inside
  induction content generalizing parent with
  | nil => simp [elements] at member
  | leaf node rest inductionHypothesis => exact inductionHypothesis once parent member
  | element other inner rest innerHypothesis restHypothesis =>
    rw [keys_element, List.count_cons, List.count_append] at once
    have present : ∀ forest : Content, (holder, children) ∈ forest.elements →
        0 < forest.keys.count (some key) := fun forest below =>
      List.count_pos_iff.2 (((elements_inside below).map _).subset within)
    simp only [parentOf?]
    rcases List.mem_cons.1 member with here | below
    · obtain ⟨rfl, rfl⟩ := Prod.mk.inj here
      have some_ : 0 < children.keys.count (some key) := List.count_pos_iff.2 within
      have notOwn : holder.key ≠ some key := fun own => by
        simp [own] at once
        omega
      rw [if_neg notOwn, parentOf?_top (by omega) _ inside hasKey]
    · rcases List.mem_append.1 below with below | behind
      · have some_ := present _ below
        have notOwn : other.key ≠ some key := fun own => by
          simp [own] at once
          omega
        rw [if_neg notOwn, innerHypothesis (by omega) _ below]
      · have some_ := present _ behind
        have notOwn : other.key ≠ some key := fun own => by
          simp [own] at once
          omega
        rw [if_neg notOwn, parentOf?_absent (List.count_eq_zero.1 (by omega))]
        exact restHypothesis (by omega) _ behind

/-- An element is not inside of itself. -/
theorem inside_absent (once : content.keys.count (some key) ≤ 1) {children : Content}
    (member : (tag, children) ∈ content.elements) (hasKey : tag.key = some key) :
    some key ∉ children.keys := by
  induction content with
  | nil => simp [elements] at member
  | leaf node rest inductionHypothesis => exact inductionHypothesis once member
  | element other inner rest innerHypothesis restHypothesis =>
    rw [keys_element, List.count_cons, List.count_append] at once
    rcases List.mem_cons.1 member with here | below
    · obtain ⟨rfl, rfl⟩ := Prod.mk.inj here
      simp only [hasKey, beq_self_eq_true, if_true] at once
      exact List.count_eq_zero.1 (by omega)
    · rcases List.mem_append.1 below with below | behind
      · exact innerHypothesis (by omega) below
      · exact restHypothesis (by omega) behind

/-- What stands at the top of a forest is not inside of its elements. -/
theorem top_not_inside {content : Content} {key : Nat} {tag : Tag}
    (once : content.keys.count (some key) ≤ 1) (top : tag ∈ content.tops)
    (hasKey : tag.key = some key) :
    ∀ found ∈ content.elements, some key ∉ found.2.keys := by
  induction content with
  | nil => simp [elements]
  | leaf node rest inductionHypothesis => exact inductionHypothesis once top
  | element other children rest _ restHypothesis =>
    rw [keys_element, List.count_cons, List.count_append] at once
    have apart : ∀ forest : Content, forest.keys.count (some key) = 0 →
        ∀ found ∈ forest.elements, some key ∉ found.2.keys := by
      intro forest none found member inside
      exact List.count_eq_zero.1 none
        (((elements_inside (by exact member)).map _).subset inside)
    have childrenApart : children.keys.count (some key) = 0 := by
      rcases List.mem_cons.1 top with here | later
      · rw [← here, hasKey] at once
        simp only [beq_self_eq_true, if_true] at once
        omega
      · have some_ : 0 < rest.keys.count (some key) :=
          List.count_pos_iff.2 (hasKey ▸ keys_of_tops later)
        omega
    intro found member
    rcases List.mem_cons.1 member with here | below
    · rw [here]
      exact List.count_eq_zero.1 childrenApart
    · rcases List.mem_append.1 below with inside | behind
      · exact apart children childrenApart found inside
      · rcases List.mem_cons.1 top with here | later
        · rw [← here, hasKey] at once
          simp only [beq_self_eq_true, if_true] at once
          exact apart rest (by omega) found behind
        · exact restHypothesis (by omega) later found behind

/-! ## An element in the place of another one -/

theorem exchanged_absent (absent : some key ∉ content.keys) :
    exchanged key tag content = content := by
  induction content with
  | nil => rfl
  | leaf node rest inductionHypothesis =>
    exact congrArg (Content.leaf node) (inductionHypothesis absent)
  | element other children rest innerHypothesis restHypothesis =>
    simp only [keys_element, List.mem_cons, List.mem_append, not_or] at absent
    obtain ⟨own, inner, later⟩ := absent
    simp only [exchanged, Ne.symm own, if_false, innerHypothesis inner, restHypothesis later]

theorem exchanged_append (content behind : Content) :
    exchanged key tag (content.append behind) =
      (exchanged key tag content).append (exchanged key tag behind) := by
  induction content with
  | nil => rfl
  | leaf node rest inductionHypothesis => exact congrArg (Content.leaf node) inductionHypothesis
  | element other children rest _ restHypothesis =>
    simp only [append, exchanged, restHypothesis]
    split <;> rfl

theorem keys_exchanged {other : Option Nat} (member : other ∈ (exchanged key tag content).keys) :
    other ∈ content.keys ∨ other = tag.key := by
  induction content with
  | nil => exact absurd member (by simp [exchanged])
  | leaf node rest inductionHypothesis => exact inductionHypothesis member
  | element found children rest innerHypothesis restHypothesis =>
    simp only [exchanged] at member
    split at member
    · simp only [keys_element, keys_nil, List.nil_append, List.mem_cons] at member ⊢
      rcases member with here | later
      · exact Or.inr here
      · exact (restHypothesis later).imp (fun before => Or.inr (List.mem_append_right _ before)) id
    · simp only [keys_element, List.mem_cons, List.mem_append] at member ⊢
      rcases member with here | inner | later
      · exact Or.inl (Or.inl here)
      · exact (innerHypothesis inner).imp (fun before => Or.inr (Or.inl before)) id
      · exact (restHypothesis later).imp (fun before => Or.inr (Or.inr before)) id

section Exchange

variable (content) (other : tag.key ≠ some key)
include other

/-- The key is gone when its element is exchanged. -/
theorem exchanged_without_key : some key ∉ (exchanged key tag content).keys := by
  induction content with
  | nil => simp [exchanged]
  | leaf node rest inductionHypothesis => exact inductionHypothesis
  | element found children rest innerHypothesis restHypothesis =>
    simp only [exchanged]
    split
    next => simp [Ne.symm other, restHypothesis]
    next notOwn => simp [Ne.symm notOwn, innerHypothesis, restHypothesis]

/-- An element put before one that is then taken out stands in its place. -/
theorem insertedBefore_without :
    (insertedBefore key tag .nil content).without key = exchanged key tag content := by
  induction content with
  | nil => rfl
  | leaf node rest inductionHypothesis => exact congrArg (Content.leaf node) inductionHypothesis
  | element found children rest innerHypothesis restHypothesis =>
    simp only [insertedBefore, exchanged]
    split
    next own => simp [without, other, own, restHypothesis]
    next notOwn => simp [without, notOwn, innerHypothesis, restHypothesis]

theorem find?_insertedBefore :
    (insertedBefore key tag .nil content).find? key =
      (content.find? key).map fun found => (found.1, insertedBefore key tag .nil found.2) := by
  induction content with
  | nil => rfl
  | leaf node rest inductionHypothesis => exact inductionHypothesis
  | element found children rest innerHypothesis restHypothesis =>
    simp only [insertedBefore, find?]
    split
    next own => simp [find?, other, own]
    next notOwn =>
      simp only [find?, notOwn, if_false, innerHypothesis, restHypothesis]
      cases children.find? key <;> rfl

end Exchange

end EoAssembly.Xml.Content

/-! ## Elements outside of the document -/

namespace EoAssembly.Editor

open Xml (Tag Content)

variable {document : Document} {tag : Tag} {content : Content} {key next : Nat}

/-- Another root element takes the place of the last one. -/
theorem withWhole_withWhole (document : Document) (other : Content) (tag : Tag)
    (children : Content) :
    (document.withWhole other).withWhole (.element tag children .nil) =
      document.withWhole (.element tag children .nil) := by
  cases other <;> rfl

theorem whole_withWhole (document : Document) (tag : Tag) (children : Content) :
    (document.withWhole (.element tag children .nil)).whole = .element tag children .nil := rfl

section Root

variable (inner : document.root.tag.key ≠ some key) (reference : Tag)
include inner

theorem insertedBefore_whole : Content.insertedBefore key reference .nil document.whole =
    .element document.root.tag
      (Content.insertedBefore key reference .nil document.root.content) .nil := by
  simp [Document.whole, Content.insertedBefore, inner]

theorem exchanged_whole : Content.exchanged key reference document.whole =
    .element document.root.tag (Content.exchanged key reference document.root.content) .nil := by
  simp [Document.whole, Content.exchanged, inner]

end Root

theorem root_ne (absent : some key ∉ document.whole.keys) :
    document.root.tag.key ≠ some key := by
  intro same
  refine absent ?_
  unfold Document.whole
  rw [Content.keys_element, same]
  exact List.mem_cons_self

theorem find?_loose (absent : some key ∉ document.whole.keys) (hasKey : tag.key = some key) :
    (⟨document, [.single tag content], next⟩ : Editor).find? key = some (tag, content) := by
  unfold find? forests
  simp [Content.find?_absent absent, Content.single, Content.find?, hasKey]

theorem takeOut_loose (absent : some key ∉ document.whole.keys) (hasKey : tag.key = some key) :
    (⟨document, [.single tag content], next⟩ : Editor).takeOut key = ⟨document, [], next⟩ := by
  unfold takeOut
  simp only [Content.without_absent absent, Content.single, List.filter_cons, hasKey]
  simp
  rfl

/-- An element outside of the document goes before another one. -/
theorem insertBefore_loose {fresh : Nat} {reference holder : Tag}
    (freshKey : reference.key = some fresh) (absent : some fresh ∉ document.whole.keys)
    (apart : fresh ≠ key) (hasParent : document.whole.parentOf? key none = some (some holder)) :
    (⟨document, [.single reference .nil], next⟩ : Editor).insertBefore key fresh =
      .ok ⟨document.withWhole (Content.insertedBefore key reference .nil document.whole), [],
        next⟩ := by
  have parent : (⟨document, [.single reference .nil], next⟩ : Editor).parent? key =
      some holder := by
    unfold parent? forests
    simp [hasParent]
  unfold insertBefore movable
  rw [find?_loose absent freshKey, parent, takeOut_loose absent freshKey]
  simp [root_ne absent, apart, Content.hasKey, Content.find?, mapForests]

/-- An element is taken out of the document. -/
theorem detach_once (inner : document.root.tag.key ≠ some key)
    (found : document.whole.find? key = some (tag, content)) :
    (⟨document, [], next⟩ : Editor).detach key =
      .ok ⟨document.withWhole (document.whole.without key), [.single tag content], next⟩ := by
  have isFound : (⟨document, [], next⟩ : Editor).find? key = some (tag, content) := by
    unfold find? forests
    simp [found]
  unfold detach
  rw [isFound, if_neg inner]
  rfl

/-- The tag of an element outside of the document changes. -/
theorem modifyTag_loose (absent : some key ∉ document.whole.keys) (hasKey : tag.key = some key)
    (apart : some key ∉ content.keys) (change : Tag → Tag) :
    (⟨document, [.single tag content], next⟩ : Editor).modifyTag key change =
      ⟨document, [.single (change tag) content], next⟩ := by
  unfold modifyTag mapForests
  simp only [Content.modifyTag_absent absent, List.map_cons, List.map_nil, Content.single,
    Content.modifyTag, hasKey, if_true, Content.modifyTag_absent apart]
  rfl

/-- An element outside of the document goes to the end of the content of one inside. -/
theorem append_loose {list : Nat} (absent : some key ∉ document.whole.keys)
    (hasKey : tag.key = some key) (apart : key ≠ list) (without : some list ∉ content.keys) :
    (⟨document, [.single tag content], next⟩ : Editor).append list key =
      .ok ⟨document.withWhole (document.whole.modifyChildren list fun children =>
        children.append (.single tag content)), [], next⟩ := by
  unfold append movable
  rw [find?_loose absent hasKey, takeOut_loose absent hasKey]
  simp [root_ne absent, apart, Content.hasKey, Content.find?_absent without, mapForests]

end EoAssembly.Editor
