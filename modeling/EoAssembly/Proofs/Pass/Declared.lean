import Mathlib.Algebra.GroupWithZero.Nat
import EoAssembly.Proofs.Pass.FloatedDocument

/-!
Contract: moving nested declarations up, told by the document before.

Every object of a document has a spot: the objects around it, its own place among the objects of
its parent, and its content, all of them as they stand before anything moves.  A declaration with
an object around it leaves a reference with its full name, and stands behind the other top-level
objects, the deeper ones first and those of one depth in the order of the document.

Owns `Spot`, `replacedIn` and `declared`, that the walk of the pass answers what they tell, and
when it makes a difference that an object without a name whose parent is no object is not known
by its position.
-/

namespace EoAssembly.Pass

open Document (childObjects)

/-! ## Spots -/

/-- An object where it stands: the objects around it, outermost first, as far as the chain of
parents consists of objects, and itself, all of them with the number of objects before them under
the same parent. -/
structure Spot where
  around : List (Xml.Tag × Nat)
  tag : Xml.Tag
  index : Nat
  content : Xml.Content

namespace Spot

/-- Whether an object is a declaration inside of another object. -/
def nested (spot : Spot) : Bool := !spot.around.isEmpty && spot.tag.has "abstract"

/-- The number of objects around an object. -/
def depth (spot : Spot) : Nat := spot.around.length

/-- The objects from the outermost one down to the object itself. -/
def chain (spot : Spot) : List (Xml.Tag × Nat) := spot.around ++ [(spot.tag, spot.index)]

end Spot

/-- The spots of all objects of a forest, in document order. -/
def spotsIn (around : List (Xml.Tag × Nat)) (index : Nat) : Xml.Content → List Spot
  | .nil => []
  | .leaf _ rest => spotsIn around index rest
  | .element tag children rest =>
    if tag.isNamed objectLabel then
      ⟨around, tag, index, children⟩ ::
        (spotsIn (around ++ [(tag, index)]) 0 children ++ spotsIn around (index + 1) rest)
    else spotsIn [] 0 children ++ spotsIn around index rest

/-- The spots of all objects of a document. -/
def spots (document : Document) : List Spot := spotsIn [] 0 document.whole

/-- The nested declarations of a document, in document order. -/
def nestedOf (document : Document) : List Spot := (spots document).filter Spot.nested

section Names

variable (outermost : Nat → Nat)

/-- The names of objects one inside of the other.  The position of the outermost one, whose parent
is no object, is taken for `outermost` of it. -/
def namesOf : List (Xml.Tag × Nat) → List String
  | [] => []
  | (tag, index) :: inner =>
    ownName tag (outermost index) :: inner.map fun object => ownName object.1 object.2

/-- The full name of the innermost of objects one inside of the other. -/
def fullName (chain : List (Xml.Tag × Nat)) : String :=
  Text.joinAll scopeMark (namesOf outermost chain)

/-- A forest with a reference in the place of each nested declaration. -/
def replacedIn (around : List (Xml.Tag × Nat)) (index : Nat) : Xml.Content → Xml.Content
  | .nil => .nil
  | .leaf node rest => .leaf node (replacedIn around index rest)
  | .element tag children rest =>
    if tag.isNamed objectLabel then
      if !around.isEmpty && tag.has "abstract" then
        .element (referenceTo (fullName outermost (around ++ [(tag, index)])) tag) .nil
          (replacedIn around (index + 1) rest)
      else
        .element tag (replacedIn (around ++ [(tag, index)]) 0 children)
          (replacedIn around (index + 1) rest)
    else .element tag (replacedIn [] 0 children) (replacedIn around index rest)

/-- A nested declaration under its full name, without nested declarations of its own. -/
def Spot.floated (spot : Spot) : Floated :=
  ⟨spot.depth, spot.tag.set "name" (fullName outermost spot.chain),
    replacedIn outermost spot.chain 0 spot.content⟩

/-- A document where each nested declaration is replaced, with declarations behind its top-level
objects. -/
def declared (document : Document) (moved : List Spot) : Document :=
  let left := document.withWhole (replacedIn outermost [] 0 document.whole)
  left.withContent (left.root.content.modifyFirst objectsLabel fun content =>
    content.append (forestOf (moved.map (Spot.floated outermost))))

end Names

/-- Declarations in the order in which they move: the deeper ones first, and those of one depth
in the order in which they stand. -/
structure InTurn (standing moved : List Spot) : Prop where
  same : moved.Perm standing
  deepest : moved.Pairwise fun first second => second.depth ≤ first.depth
  steady : ∀ depth, (moved.filter fun spot => spot.depth == depth) =
    standing.filter fun spot => spot.depth == depth

/-! ## The walk of the pass -/

variable {outermost : Nat → Nat}

/-- The position of an object whose parent is no object does not count for the pass. -/
abbrev uncounted : Nat → Nat := fun _ => 0

theorem namesOf_isEmpty (around : List (Xml.Tag × Nat)) :
    (namesOf outermost around).isEmpty = around.isEmpty := by
  cases around <;> rfl

theorem namesOf_length (around : List (Xml.Tag × Nat)) :
    (namesOf outermost around).length = around.length := by
  cases around <;> simp [namesOf]

theorem namesOf_concat (around : List (Xml.Tag × Nat)) (tag : Xml.Tag) (index : Nat) :
    namesOf outermost (around ++ [(tag, index)]) =
      namesOf outermost around ++
        [ownName tag (if around.isEmpty then outermost index else index)] := by
  cases around <;> simp [namesOf]

theorem lift_eq (content : Xml.Content) (around : List (Xml.Tag × Nat)) (index : Nat) :
    lift (namesOf uncounted around) index content = (replacedIn uncounted around index content,
      ((spotsIn around index content).filter Spot.nested).map (Spot.floated uncounted)) := by
  induction content generalizing around index with
  | nil => rfl
  | leaf node rest inductionHypothesis => simp [lift, replacedIn, spotsIn, inductionHypothesis]
  | element tag children rest innerHypothesis restHypothesis =>
    have inner := innerHypothesis (around ++ [(tag, index)]) 0
    rw [namesOf_concat] at inner
    simp only [List.isEmpty_iff] at inner
    have reset := innerHypothesis [] 0
    by_cases object : tag.isNamed objectLabel = true
    · by_cases moves : (!around.isEmpty && tag.has "abstract") = true
      · simp [lift, replacedIn, spotsIn, object, moves, inner, restHypothesis, Spot.nested,
          Spot.floated, Spot.depth, Spot.chain, fullName, namesOf_concat, namesOf_isEmpty,
          namesOf_length]
      · simp [lift, replacedIn, spotsIn, object, moves, inner, restHypothesis, Spot.nested,
          namesOf_isEmpty]
    · rw [show namesOf uncounted [] = [] from rfl] at reset
      simp [lift, replacedIn, spotsIn, object, reset, restHypothesis]

/-- Spots are those of all objects. -/
theorem spotsIn_objects (content : Xml.Content) (around : List (Xml.Tag × Nat)) (index : Nat) :
    (spotsIn around index content).map (fun spot => (spot.tag, spot.content)) =
      content.allNamed objectLabel := by
  induction content generalizing around index with
  | nil => rfl
  | leaf node rest inductionHypothesis => exact inductionHypothesis around index
  | element tag children rest innerHypothesis restHypothesis =>
    by_cases object : tag.isNamed objectLabel = true
    · simp [spotsIn, Xml.Content.allNamed, object, innerHypothesis, restHypothesis]
    · simp [spotsIn, Xml.Content.allNamed, object, innerHypothesis, restHypothesis]

/-! ## The order of the moves -/

/-- Sorting by depth keeps those of one depth in their order. -/
theorem inTurn_mergeSort (standing : List Spot) :
    InTurn standing (standing.mergeSort fun first second => decide (second.depth ≤ first.depth)) := by
  have sorted : (standing.mergeSort fun first second =>
      decide (second.depth ≤ first.depth)).Pairwise fun first second =>
        decide (second.depth ≤ first.depth) = true :=
    List.pairwise_mergeSort (by simp; omega) (by simp; omega) standing
  refine ⟨List.mergeSort_perm _ _, sorted.imp (by simp), fun depth => ?_⟩
  have alike : (standing.filter fun spot => spot.depth == depth).Pairwise fun first second =>
      decide (second.depth ≤ first.depth) = true := by
    refine List.pairwise_of_forall_mem_list fun first inFirst second inSecond => ?_
    have one := beq_iff_eq.1 (List.mem_filter.1 inFirst).2
    have two := beq_iff_eq.1 (List.mem_filter.1 inSecond).2
    exact decide_eq_true (by omega)
  have kept := (List.sublist_mergeSort (by simp; omega) (by simp; omega) alike
    List.filter_sublist).filter fun spot => spot.depth == depth
  rw [List.filter_filter] at kept
  simp only [Bool.and_self] at kept
  exact (kept.eq_of_length (((List.mergeSort_perm _ _).filter _).length_eq).symm).symm

/-- The floated declarations of the pass are in turn. -/
theorem deepestFirst_map (standing : List Spot) :
    deepestFirst (standing.map (Spot.floated outermost)) =
      (standing.mergeSort fun first second => decide (second.depth ≤ first.depth)).map
        (Spot.floated outermost) := by
  unfold deepestFirst
  exact (List.map_mergeSort (f := Spot.floated outermost) fun _ _ _ _ => rfl).symm

/-! ## The number of objects -/

/-- The number of objects of a forest. -/
def countIn (content : Xml.Content) : Nat := (content.allNamed objectLabel).length

theorem countIn_append (content behind : Xml.Content) :
    countIn (content.append behind) = countIn content + countIn behind := by
  unfold countIn
  induction content with
  | nil => simp [Xml.Content.append, Xml.Content.allNamed]
  | leaf node rest inductionHypothesis => exact inductionHypothesis
  | element tag children rest _ restHypothesis =>
    simp only [Xml.Content.append, Xml.Content.allNamed, List.length_append, restHypothesis]
    omega

theorem countIn_modifyFirst (behind content : Xml.Content)
    (hasList : (content.named objectsLabel).head?.isSome = true) :
    countIn (content.modifyFirst objectsLabel fun children => children.append behind) =
      countIn content + countIn behind := by
  induction content with
  | nil => exact absurd hasList (by simp [Xml.Content.named])
  | leaf node rest inductionHypothesis => exact inductionHypothesis hasList
  | element tag children rest _ restHypothesis =>
    by_cases isList : tag.isNamed objectsLabel = true
    · have inner := countIn_append children behind
      unfold countIn at inner ⊢
      simp only [Xml.Content.modifyFirst, isList, if_true, Xml.Content.allNamed,
        Xml.Tag.objects_not_object isList, Bool.false_eq_true, if_false, List.length_append, inner]
      omega
    · have later := restHypothesis (by simpa [Xml.Content.named, isList] using hasList)
      unfold countIn at later ⊢
      simp only [Xml.Content.modifyFirst, isList, Xml.Content.allNamed, List.length_append,
        Bool.false_eq_true, if_false, later]
      omega

theorem countIn_forestOf {floated : List Floated}
    (objects : ∀ declaration ∈ floated, declaration.tag.isNamed objectLabel = true) :
    countIn (forestOf floated) =
      (floated.map fun declaration => countIn declaration.content + 1).sum := by
  unfold countIn
  induction floated with
  | nil => rfl
  | cons declaration rest inductionHypothesis =>
    have here := objects declaration List.mem_cons_self
    have later := inductionHypothesis fun other among =>
      objects other (List.mem_cons_of_mem declaration among)
    simp only [forestOf, Xml.Content.allNamed, here, if_true, List.length_append, later,
      List.map_cons, List.sum_cons, List.length_singleton]
    omega

/-- Every nested declaration leaves one more object: itself, and its reference. -/
theorem countIn_replacedIn (content : Xml.Content) (around : List (Xml.Tag × Nat)) (index : Nat) :
    countIn (replacedIn outermost around index content) +
        (((spotsIn around index content).filter Spot.nested).map fun spot =>
          countIn (spot.floated outermost).content + 1).sum =
      countIn content + ((spotsIn around index content).filter Spot.nested).length := by
  unfold countIn
  induction content generalizing around index with
  | nil => rfl
  | leaf node rest inductionHypothesis => exact inductionHypothesis around index
  | element tag children rest innerHypothesis restHypothesis =>
    by_cases object : tag.isNamed objectLabel = true
    · have inner := innerHypothesis (around ++ [(tag, index)]) 0
      have later := restHypothesis around (index + 1)
      by_cases moves : (!around.isEmpty && tag.has "abstract") = true
      · simp only [replacedIn, spotsIn, object, moves, if_true, Xml.Content.allNamed, Spot.nested,
          List.filter_cons, isNamed_referenceTo, List.filter_append, List.map_append,
          List.sum_append, List.length_append, List.map_cons, List.sum_cons, List.length_cons,
          Spot.floated, Spot.chain, List.length_nil] at inner later ⊢
        omega
      · simp only [replacedIn, spotsIn, object, moves, if_true, Xml.Content.allNamed, Spot.nested,
          List.filter_cons, List.filter_append, List.map_append, List.sum_append,
          List.length_append, Bool.false_eq_true, if_false, List.length_cons,
          List.length_nil] at inner later ⊢
        omega
    · have inner := innerHypothesis [] 0
      have later := restHypothesis around index
      simp only [replacedIn, spotsIn, object, Bool.false_eq_true, if_false, Xml.Content.allNamed,
        List.filter_append, List.map_append, List.sum_append, List.length_append,
        List.length_nil] at inner later ⊢
      omega

/-! ## The document after the moves -/

/-- The objects around those under the root. -/
def rootChain (document : Document) : List (Xml.Tag × Nat) :=
  if document.root.tag.isNamed objectLabel then [(document.root.tag, 0)] else []

theorem namesOf_rootChain (document : Document) :
    namesOf uncounted (rootChain document) = chainOfRoot document := by
  unfold rootChain chainOfRoot
  split <;> rfl

theorem replacedIn_whole (document : Document) :
    replacedIn outermost [] 0 document.whole = .element document.root.tag
      (replacedIn outermost (rootChain document) 0 document.root.content) .nil := by
  unfold Document.whole rootChain
  by_cases object : document.root.tag.isNamed objectLabel = true
  · simp [replacedIn, object]
  · simp [replacedIn, object]

theorem nestedOf_eq (document : Document) : nestedOf document =
    (spotsIn (rootChain document) 0 document.root.content).filter Spot.nested := by
  unfold nestedOf spots Document.whole rootChain
  by_cases object : document.root.tag.isNamed objectLabel = true
  · simp [spotsIn, object, Spot.nested]
  · simp [spotsIn, object]

/-- The order in which the pass moves the nested declarations. -/
def turnsOf (document : Document) : List Spot :=
  (nestedOf document).mergeSort fun first second => decide (second.depth ≤ first.depth)

theorem liftedContent_eq (document : Document) : liftedContent document =
    (replacedIn uncounted (rootChain document) 0 document.root.content,
      (nestedOf document).map (Spot.floated uncounted)) := by
  unfold liftedContent
  rw [← namesOf_rootChain, lift_eq, nestedOf_eq]

/-- The answer of the pass. -/
theorem floatedUp_eq (document : Document) :
    floatedUp document = declared uncounted document (turnsOf document) := by
  unfold floatedUp declared turnsOf
  rw [liftedContent_eq, replacedIn_whole]
  simp only
  rw [deepestFirst_map]
  rfl

theorem countIn_whole (document : Document) :
    countIn document.whole =
      (if document.root.tag.isNamed objectLabel then 1 else 0) + countIn document.root.content := by
  unfold countIn Document.whole
  by_cases object : document.root.tag.isNamed objectLabel = true
  · simp [Xml.Content.allNamed, object]
    omega
  · simp [Xml.Content.allNamed, object]

/-- The number of objects grows by that of the nested declarations. -/
theorem countIn_floatedUp {document : Document} {found : Xml.Tag × Xml.Content}
    (hasList : document.objects? = some found) :
    (floatedUp document).allObjects.length =
      document.allObjects.length + (nestedOf document).length := by
  have left := liftedContent_eq document
  have listed : ((liftedContent document).1.named objectsLabel).head?.isSome = true := by
    unfold Document.objects? at hasList
    unfold liftedContent
    rw [named_objects_lift, List.head?_map, hasList]
    rfl
  have added : countIn (forestOf (deepestFirst (liftedContent document).2)) =
      ((nestedOf document).map fun spot =>
        countIn (spot.floated uncounted).content + 1).sum := by
    have inTurn := (List.mergeSort_perm (liftedContent document).2 fun first second =>
      decide (second.depth ≤ first.depth)).map fun declaration => countIn declaration.content + 1
    rw [countIn_forestOf (floated_isNamed document)]
    unfold deepestFirst
    rw [inTurn.sum_nat, left, List.map_map]
    rfl
  have kept := @countIn_replacedIn uncounted document.root.content
    (rootChain document) 0
  have leftTree : (liftedContent document).1 =
      replacedIn uncounted (rootChain document) 0 document.root.content :=
    congrArg Prod.fst left
  rw [← nestedOf_eq, ← leftTree] at kept
  show countIn (floatedUp document).whole = countIn document.whole + _
  rw [countIn_whole, countIn_whole]
  unfold floatedUp Document.withContent
  simp only
  rw [countIn_modifyFirst _ _ listed, added]
  omega

/-! ## Where positions count -/

/-- What is inside of an object stands where the forest stands. -/
theorem spotsIn_inside (content : Xml.Content) (around : List (Xml.Tag × Nat)) (index : Nat) :
    ∀ spot ∈ spotsIn around index content, ∀ inner ∈ spotsIn spot.chain 0 spot.content,
      inner ∈ spotsIn around index content := by
  induction content generalizing around index with
  | nil => simp [spotsIn]
  | leaf node rest inductionHypothesis => exact inductionHypothesis around index
  | element tag children rest innerHypothesis restHypothesis =>
    intro spot member inner inside
    by_cases object : tag.isNamed objectLabel = true
    · simp only [spotsIn, object, if_true, List.mem_cons, List.mem_append] at member ⊢
      rcases member with here | among | behind
      · rw [here] at inside
        exact Or.inr (Or.inl inside)
      · exact Or.inr (Or.inl (innerHypothesis _ _ spot among inner inside))
      · exact Or.inr (Or.inr (restHypothesis _ _ spot behind inner inside))
    · simp only [spotsIn, object, Bool.false_eq_true, if_false, List.mem_append] at member ⊢
      rcases member with among | behind
      · exact Or.inl (innerHypothesis _ _ spot among inner inside)
      · exact Or.inr (restHypothesis _ _ spot behind inner inside)

/-- References depend on the full names of the nested declarations only. -/
theorem replacedIn_congr {one other : Nat → Nat} (content : Xml.Content)
    (around : List (Xml.Tag × Nat)) (index : Nat)
    (alike : ∀ spot ∈ (spotsIn around index content).filter Spot.nested,
      fullName one spot.chain = fullName other spot.chain) :
    replacedIn one around index content = replacedIn other around index content := by
  induction content generalizing around index with
  | nil => rfl
  | leaf node rest inductionHypothesis =>
    exact congrArg (Xml.Content.leaf node) (inductionHypothesis around index alike)
  | element tag children rest innerHypothesis restHypothesis =>
    by_cases object : tag.isNamed objectLabel = true
    · simp only [spotsIn, object, if_true, List.filter_cons, List.filter_append] at alike
      have later := restHypothesis around (index + 1) fun spot member =>
        alike spot (by split <;> simp [member])
      have inner := innerHypothesis (around ++ [(tag, index)]) 0 fun spot member =>
        alike spot (by split <;> simp [member])
      by_cases moves : (!around.isEmpty && tag.has "abstract") = true
      · have own := alike ⟨around, tag, index, children⟩ (by simp [Spot.nested, moves])
        simp only [Spot.chain] at own
        simp only [replacedIn, object, moves, if_true, later, own]
      · simp only [replacedIn, object, moves, if_true, Bool.false_eq_true, if_false, later, inner]
    · simp only [spotsIn, object, Bool.false_eq_true, if_false, List.filter_append] at alike
      have later := restHypothesis around index fun spot member => alike spot (by simp [member])
      have inner := innerHypothesis [] 0 fun spot member => alike spot (by simp [member])
      simp only [replacedIn, object, Bool.false_eq_true, if_false, later, inner]

theorem topTags_replacedIn (content : Xml.Content) (index : Nat) :
    (childObjects (replacedIn outermost [] index content)).map Prod.fst =
      (childObjects content).map Prod.fst := by
  unfold childObjects
  induction content generalizing index with
  | nil => rfl
  | leaf node rest inductionHypothesis => exact inductionHypothesis index
  | element tag children rest _ restHypothesis =>
    by_cases object : tag.isNamed objectLabel = true
    · simp [replacedIn, object, Xml.Content.named, restHypothesis]
    · simp [replacedIn, object, Xml.Content.named, restHypothesis]

theorem named_objects_replacedIn (content : Xml.Content) (around : List (Xml.Tag × Nat))
    (index : Nat) :
    (replacedIn outermost around index content).named objectsLabel =
      (content.named objectsLabel).map fun found =>
        (found.1, replacedIn outermost [] 0 found.2) := by
  induction content generalizing around index with
  | nil => rfl
  | leaf node rest inductionHypothesis => exact inductionHypothesis around index
  | element tag children rest _ restHypothesis =>
    by_cases object : tag.isNamed objectLabel = true
    · have noList : tag.isNamed objectsLabel = false :=
        Xml.Tag.isPlain_apart (by decide) object
      by_cases moved : (!around.isEmpty && tag.has "abstract") = true
      · have noListLeft : ∀ full, (referenceTo full tag).isNamed objectsLabel = false :=
          fun full => Xml.Tag.isPlain_apart (by decide) (isNamed_referenceTo full tag)
        simp [replacedIn, object, moved, Xml.Content.named, noList, noListLeft, restHypothesis]
      · simp [replacedIn, object, moved, Xml.Content.named, noList, restHypothesis]
    · by_cases isList : tag.isNamed objectsLabel = true
      · simp [replacedIn, object, Xml.Content.named, isList, restHypothesis]
      · simp [replacedIn, object, Xml.Content.named, isList, restHypothesis]

theorem spotsIn_isNamed (content : Xml.Content) (around : List (Xml.Tag × Nat)) (index : Nat) :
    ∀ spot ∈ spotsIn around index content, spot.tag.isNamed objectLabel = true := by
  induction content generalizing around index with
  | nil => simp [spotsIn]
  | leaf node rest inductionHypothesis => exact inductionHypothesis around index
  | element tag children rest innerHypothesis restHypothesis =>
    intro spot member
    by_cases object : tag.isNamed objectLabel = true
    · simp only [spotsIn, object, if_true, List.mem_cons, List.mem_append] at member
      rcases member with here | among | behind
      · rw [here]
        exact object
      · exact innerHypothesis _ _ spot among
      · exact restHypothesis _ _ spot behind
    · simp only [spotsIn, object, Bool.false_eq_true, if_false, List.mem_append] at member
      rcases member with among | behind
      · exact innerHypothesis _ _ spot among
      · exact restHypothesis _ _ spot behind

/-- The top-level objects after the moves are those from before, then the moved ones. -/
theorem topTags_declared {document : Document} {found : Xml.Tag × Xml.Content}
    (hasList : document.objects? = some found) {moved : List Spot}
    (among : ∀ spot ∈ moved, spot ∈ spots document) :
    (declared outermost document moved).topObjects.map Prod.fst =
      document.topObjects.map Prod.fst ++
        moved.map fun spot => spot.tag.set "name" (fullName outermost spot.chain) := by
  have objects : ∀ declaration ∈ moved.map (Spot.floated outermost),
      declaration.tag.isNamed objectLabel = true := by
    intro declaration member
    obtain ⟨spot, inMoved, rfl⟩ := List.mem_map.1 member
    simp only [Spot.floated, Xml.Tag.isNamed_set]
    exact spotsIn_isNamed _ _ _ spot (among spot inMoved)
  have after : (declared outermost document moved).objects? =
      some (found.1, (replacedIn outermost [] 0 found.2).append
        (forestOf (moved.map (Spot.floated outermost)))) := by
    unfold Document.objects? at hasList ⊢
    unfold declared
    rw [replacedIn_whole]
    simp only [Document.withContent, Document.withWhole]
    rw [named_modifyFirst, named_objects_replacedIn, List.head?_map, hasList]
    rfl
  unfold Document.topObjects
  rw [after, hasList]
  simp only [Document.childObjects_append, List.map_append, topTags_replacedIn,
    childObjects_forestOf objects, List.map_map, Function.comp_def, Spot.floated]

/-- Whether every nested declaration is inside of an outermost object that has a name or comes
first under its parent. -/
def Known (document : Document) : Prop :=
  ∀ spot ∈ nestedOf document, ∀ outer ∈ spot.around.head?,
    outer.1.has "name" = true ∨ outer.2 = 0

instance (document : Document) : Decidable (Known document) :=
  inferInstanceAs (Decidable (∀ spot ∈ nestedOf document, ∀ outer ∈ spot.around.head?,
    outer.1.has "name" = true ∨ outer.2 = 0))

theorem joinAll_cons (mark : Char) (first : String) {rest : List String} (more : rest ≠ []) :
    (Text.joinAll mark (first :: rest)).toList =
      first.toList ++ mark :: Text.joined mark (rest.map String.toList) := by
  obtain ⟨second, others, rfl⟩ := List.exists_cons_of_ne_nil more
  simp [Text.joinAll, Text.joined]

theorem ownName_counted {tag : Xml.Tag} {index : Nat}
    (same : ownName tag index = ownName tag 0) : tag.has "name" = true ∨ index = 0 := by
  unfold ownName at same
  cases named : tag.get? "name" with
  | some name => exact Or.inl (by simp [Xml.Tag.has, named])
  | none =>
    rw [named] at same
    simp only [Option.getD_none] at same
    have digits := congrArg String.toList same
    simp only [String.toList_append, List.append_cancel_left_eq, Nat.toString_eq_ofList_toDigits,
      String.toList_ofList] at digits
    have values := congrArg (fun digits => Nat.ofDigitChars 10 digits 0) digits
    simp only [Nat.ofDigitChars_ten_toDigits] at values
    exact Or.inr values

/-- The full name of what is nested does not depend on the way of counting exactly where the
outermost object has a name or comes first. -/
theorem fullName_counted {around : List (Xml.Tag × Nat)} {outer : Xml.Tag × Nat}
    (object : Xml.Tag × Nat) (isOuter : around.head? = some outer) :
    fullName id (around ++ [object]) = fullName uncounted (around ++ [object]) ↔
      outer.1.has "name" = true ∨ outer.2 = 0 := by
  obtain ⟨inner, rfl⟩ : ∃ inner, around = outer :: inner := by
    cases around with
    | nil => simp at isOuter
    | cons first inner => exact ⟨inner, by simpa using isOuter⟩
  unfold fullName
  simp only [List.cons_append, namesOf, id_eq]
  constructor
  · intro same
    have texts := congrArg String.toList same
    rw [joinAll_cons _ _ (by simp), joinAll_cons _ _ (by simp)] at texts
    exact ownName_counted (String.toList_injective (List.append_cancel_right texts))
  · rintro (named | first)
    · have constant : ∀ index, ownName outer.1 index = ownName outer.1 0 := by
        intro index
        unfold ownName
        obtain ⟨name, isName⟩ := Option.isSome_iff_exists.1 named
        rw [isName]
        rfl
      rw [constant outer.2]
    · rw [first]

/-- Both ways of counting tell the same document exactly where every nested declaration is inside
of an outermost object that has a name or comes first under its parent. -/
theorem declared_id_iff {document : Document} {found : Xml.Tag × Xml.Content}
    (hasList : document.objects? = some found) {moved : List Spot}
    (perm : moved.Perm (nestedOf document)) :
    declared id document moved = declared uncounted document moved ↔ Known document := by
  have among : ∀ spot ∈ moved, spot ∈ spots document := fun spot member =>
    (List.mem_filter.1 (perm.subset member)).1
  have alike : Known document ↔ ∀ spot ∈ nestedOf document,
      fullName id spot.chain = fullName uncounted spot.chain := by
    refine forall₂_congr fun spot member => ?_
    have around : spot.around ≠ [] := by
      have nested := (List.mem_filter.1 member).2
      simp only [Spot.nested, Bool.and_eq_true, Bool.not_eq_true', List.isEmpty_eq_false_iff]
        at nested
      exact nested.1
    have isOuter := List.head?_eq_some_head around
    rw [Spot.chain, fullName_counted _ isOuter, isOuter]
    simp
  rw [alike]
  constructor
  · intro same spot member
    have tags := congrArg (fun answer => answer.topObjects.map Prod.fst) same
    simp only [topTags_declared hasList among, List.append_cancel_left_eq] at tags
    have tag := List.map_inj_left.1 tags spot (perm.symm.subset member)
    simpa using congrArg (fun tag => tag.get? "name") tag
  · intro same
    have left : replacedIn id [] 0 document.whole = replacedIn uncounted [] 0 document.whole :=
      replacedIn_congr _ _ _ same
    have floated : moved.map (Spot.floated id) = moved.map (Spot.floated uncounted) := by
      refine List.map_congr_left fun spot member => ?_
      have nested := perm.subset member
      have inner : replacedIn id spot.chain 0 spot.content =
          replacedIn uncounted spot.chain 0 spot.content := by
        refine replacedIn_congr _ _ _ fun inner inside => ?_
        obtain ⟨within, moves⟩ := List.mem_filter.1 inside
        exact same inner (List.mem_filter.2
          ⟨spotsIn_inside _ _ _ spot (among spot member) inner within, moves⟩)
      unfold Spot.floated
      rw [inner, same spot nested]
    unfold declared
    rw [left, floated]

end EoAssembly.Pass
