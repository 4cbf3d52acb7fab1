import EoAssembly.Proofs.Pass.Floating

/-!
Contract: a document whose nested declarations moved to the end of `objects`.

The walk over the root leaves its content without nested declarations, and the
first `objects` element takes them in behind its own objects.  Objects that stay
keep the chain around them up to the innermost declaration that moved, and
nothing but references and the moved declarations is new.

Owns `floatedUp`, which is what `abstractsFloatUp` answers, its top-level
objects, and where the objects of both documents come from.

Does not own: what one step of the walk does.
-/

namespace EoAssembly.Pass

open Document (placementsIn enclosingOf childObjects)

/-! ## Changing the list of top-level objects -/

theorem named_modifyFirst (label : String) (change : Xml.Content → Xml.Content)
    (content : Xml.Content) :
    ((content.modifyFirst label change).named label).head? =
      ((content.named label).head?).map fun found => (found.1, change found.2) := by
  induction content with
  | nil => rfl
  | leaf node rest inductionHypothesis => exact inductionHypothesis
  | element tag children rest _ restHypothesis =>
    by_cases found : tag.isNamed label = true
    · simp [Xml.Content.modifyFirst, Xml.Content.named, found]
    · simp [Xml.Content.modifyFirst, Xml.Content.named, found, restHypothesis]

theorem childObjects_modifyFirst (change : Xml.Content → Xml.Content) (content : Xml.Content) :
    childObjects (content.modifyFirst objectsLabel change) = childObjects content := by
  unfold childObjects
  induction content with
  | nil => rfl
  | leaf node rest inductionHypothesis => exact inductionHypothesis
  | element tag children rest _ restHypothesis =>
    by_cases isList : tag.isNamed objectsLabel = true
    · simp [Xml.Content.modifyFirst, Xml.Content.named, isList,
        Xml.Tag.objects_not_object isList]
    · by_cases object : tag.isNamed objectLabel = true
      · simp [Xml.Content.modifyFirst, Xml.Content.named, isList, object, restHypothesis]
      · simp [Xml.Content.modifyFirst, Xml.Content.named, isList, object, restHypothesis]

/-- A longer list of top-level objects has the objects of both parts. -/
theorem placementsIn_modifyFirst (behind content : Xml.Content) (around : List Enclosing)
    (atTop : Bool) (index : Nat) {found : Xml.Tag × Xml.Content}
    (first : (content.named objectsLabel).head? = some found) (placed : Placement) :
    placed ∈ placementsIn around atTop true index
        (content.modifyFirst objectsLabel fun children => children.append behind) ↔
      placed ∈ placementsIn around atTop true index content ∨
      placed ∈ placementsIn [] true false (childObjects found.2).length behind := by
  induction content generalizing index with
  | nil => simp [Xml.Content.named] at first
  | leaf node rest inductionHypothesis => exact inductionHypothesis index first
  | element tag children rest _ restHypothesis =>
    by_cases isList : tag.isNamed objectsLabel = true
    · have noObject := Xml.Tag.objects_not_object isList
      simp only [Xml.Content.named, isList, if_true, List.head?_cons, Option.some.injEq] at first
      subst first
      simp only [Xml.Content.modifyFirst, isList, if_true, placementsIn, noObject,
        Bool.false_eq_true, if_false, Bool.and_self, Document.placementsIn_append, Nat.zero_add,
        List.mem_append]
      exact or_right_comm
    · simp only [Xml.Content.named, isList, Bool.false_eq_true, if_false] at first
      have later := fun position => restHypothesis position first
      by_cases object : tag.isNamed objectLabel = true
      · simp only [Xml.Content.modifyFirst, isList, Bool.false_eq_true, if_false, placementsIn,
          object, if_true, List.mem_cons, List.mem_append, later]
        rw [or_assoc, or_assoc]
      · simp only [Xml.Content.modifyFirst, isList, Bool.false_eq_true, if_false, placementsIn,
          object, Bool.and_false, Bool.not_false, Bool.and_true, List.mem_append, later]
        rw [or_assoc]

/-! ## The moves in a document -/

/-- What a walk over the root finds around its content. -/
def chainOfRoot (document : Document) : List String :=
  if document.root.tag.isNamed objectLabel then [ownName document.root.tag 0] else []

/-- The content of the root without nested declarations, and these declarations. -/
def liftedContent (document : Document) : Xml.Content × List Floated :=
  lift (chainOfRoot document) 0 document.root.content

/-- A document whose nested declarations moved up. -/
def floatedUp (document : Document) : Document :=
  document.withContent ((liftedContent document).1.modifyFirst objectsLabel fun content =>
    content.append (forestOf (deepestFirst (liftedContent document).2)))

theorem abstractsFloatUp_ok {document : Document} {found : Xml.Tag × Xml.Content}
    (hasList : document.objects? = some found) :
    abstractsFloatUp document = .ok (floatedUp document) := by
  have whole : lift [] 0 document.whole =
      (.element document.root.tag (liftedContent document).1 .nil, (liftedContent document).2) := by
    unfold Document.whole liftedContent chainOfRoot
    by_cases object : document.root.tag.isNamed objectLabel = true
    · simp [lift, object]
    · simp [lift, object]
  unfold abstractsFloatUp
  rw [hasList, whole]
  rfl

theorem abstractsFloatUp_error {document : Document} (noList : document.objects? = none) :
    abstractsFloatUp document = .error (withoutObjects document.label) := by
  unfold abstractsFloatUp
  rw [noList]

theorem chainOfRoot_isEmpty (document : Document) :
    (chainOfRoot document).isEmpty = document.aroundRoot.isEmpty := by
  unfold chainOfRoot Document.aroundRoot
  split <;> rfl

/-- The root itself never moves. -/
theorem keptAround_aroundRoot (document : Document) :
    keptAround document.aroundRoot = document.aroundRoot := by
  unfold Document.aroundRoot
  split
  · simp [keptAround]
  · rfl

theorem aroundRoot_floatedUp (document : Document) :
    (floatedUp document).aroundRoot = document.aroundRoot := by
  unfold Document.aroundRoot floatedUp Document.withContent enclosingOf levelOf
  rw [childObjects_modifyFirst]
  have sameLevel := levelOf_lift document.root.content (chainOfRoot document) 0
  unfold levelOf at sameLevel
  unfold liftedContent
  rw [sameLevel]

theorem named_objects_lift (content : Xml.Content) (chain : List String) (index : Nat) :
    (lift chain index content).1.named objectsLabel =
      (content.named objectsLabel).map fun found => (found.1, (lift [] 0 found.2).1) := by
  induction content generalizing chain index with
  | nil => rfl
  | leaf node rest inductionHypothesis => exact inductionHypothesis chain index
  | element tag children rest _ restHypothesis =>
    by_cases object : tag.isNamed objectLabel = true
    · have noList : tag.isNamed objectsLabel = false :=
        Xml.Tag.isPlain_apart (by decide) object
      by_cases moved : (!chain.isEmpty && tag.has "abstract") = true
      · have noListLeft : ∀ full, (referenceTo full tag).isNamed objectsLabel = false :=
          fun full => Xml.Tag.isPlain_apart (by decide) (isNamed_referenceTo full tag)
        simp [lift, object, moved, Xml.Content.named, noList, noListLeft, restHypothesis]
      · simp [lift, object, moved, Xml.Content.named, noList, restHypothesis]
    · by_cases isList : tag.isNamed objectsLabel = true
      · simp [lift, object, Xml.Content.named, isList, restHypothesis]
      · simp [lift, object, Xml.Content.named, isList, restHypothesis]

/-- Objects whose parent is no object do not move. -/
theorem topTags_lift (content : Xml.Content) (index : Nat) :
    (childObjects (lift [] index content).1).map Prod.fst =
      (childObjects content).map Prod.fst := by
  unfold childObjects
  induction content generalizing index with
  | nil => rfl
  | leaf node rest inductionHypothesis => exact inductionHypothesis index
  | element tag children rest _ restHypothesis =>
    by_cases object : tag.isNamed objectLabel = true
    · simp [lift, object, Xml.Content.named, restHypothesis]
    · simp [lift, object, Xml.Content.named, restHypothesis]

/-- Declarations as a forest are all of its objects. -/
theorem childObjects_forestOf {floated : List Floated}
    (objects : ∀ declaration ∈ floated, declaration.tag.isNamed objectLabel = true) :
    childObjects (forestOf floated) =
      floated.map fun declaration => (declaration.tag, declaration.content) := by
  unfold childObjects
  induction floated with
  | nil => rfl
  | cons declaration rest inductionHypothesis =>
    have here := objects declaration List.mem_cons_self
    have later := inductionHypothesis fun other among =>
      objects other (List.mem_cons_of_mem declaration among)
    simp [forestOf, Xml.Content.named, here, later]

theorem mem_deepestFirst {floated : List Floated} {declaration : Floated} :
    declaration ∈ deepestFirst floated ↔ declaration ∈ floated :=
  List.mem_mergeSort

theorem floated_isNamed (document : Document) :
    ∀ declaration ∈ deepestFirst (liftedContent document).2,
      declaration.tag.isNamed objectLabel = true := by
  intro declaration among
  exact (lift_floated document.root.content _ document.aroundRoot
    (chainOfRoot_isEmpty document) false true 0 declaration (mem_deepestFirst.1 among)).1

/-- The tags of the top-level objects are those from before, then the moved ones. -/
theorem topTags_floatedUp {document : Document} {found : Xml.Tag × Xml.Content}
    (hasList : document.objects? = some found) :
    (floatedUp document).topObjects.map Prod.fst =
      document.topObjects.map Prod.fst ++
        (deepestFirst (liftedContent document).2).map Floated.tag := by
  have after : (floatedUp document).objects? =
      some (found.1, (lift [] 0 found.2).1.append
        (forestOf (deepestFirst (liftedContent document).2))) := by
    unfold Document.objects? at hasList
    unfold Document.objects? floatedUp Document.withContent
    rw [named_modifyFirst]
    unfold liftedContent
    rw [named_objects_lift, List.head?_map, hasList]
    rfl
  unfold Document.topObjects
  rw [after, hasList]
  simp only [Document.childObjects_append, List.map_append, topTags_lift,
    childObjects_forestOf (floated_isNamed document), List.map_map, Function.comp_def]

theorem topLevel_floatedUp {document : Document} {found : Xml.Tag × Xml.Content}
    (hasList : document.objects? = some found) :
    (floatedUp document).topLevel = document.topLevel ++
      (deepestFirst (liftedContent document).2).map fun declaration =>
        declaredBy? declaration.tag := by
  have tags := congrArg (List.map declaredBy?) (topTags_floatedUp hasList)
  simpa [Document.topLevel, Function.comp_def] using tags

/-- The objects of declarations as a forest are themselves and what is inside. -/
theorem mem_placementsIn_forestOf {floated : List Floated}
    (objects : ∀ declaration ∈ floated, declaration.tag.isNamed objectLabel = true)
    (index : Nat) (placed : Placement) :
    placed ∈ placementsIn [] true false index (forestOf floated) ↔
      (∃ position declaration, floated[position]? = some declaration ∧
        placed = ⟨declaration.tag, [], index + position, true⟩) ∨
      ∃ declaration ∈ floated, placed ∈ declaration.inside := by
  induction floated generalizing index with
  | nil => simp [forestOf, placementsIn]
  | cons declaration rest inductionHypothesis =>
    have here := objects declaration List.mem_cons_self
    have later := inductionHypothesis
      (fun other among => objects other (List.mem_cons_of_mem declaration among)) (index + 1)
    simp only [forestOf, Document.mem_placementsIn_object here, List.mem_cons, later]
    rw [← Floated.inside]
    constructor
    · rintro (own | inside | ⟨position, other, found, same⟩ | ⟨other, among, inside⟩)
      · exact Or.inl ⟨0, declaration, rfl, own⟩
      · exact Or.inr ⟨declaration, Or.inl rfl, inside⟩
      · refine Or.inl ⟨position + 1, other, found, ?_⟩
        rw [same, Nat.add_assoc, Nat.add_comm 1]
      · exact Or.inr ⟨other, Or.inr among, inside⟩
    · rintro (⟨position, other, found, same⟩ | ⟨other, own | among, inside⟩)
      · cases position with
        | zero =>
          simp only [List.getElem?_cons_zero, Option.some.injEq] at found
          subst found
          exact Or.inl same
        | succ before =>
          refine Or.inr (Or.inr (Or.inl ⟨before, other, found, ?_⟩))
          rw [same, Nat.add_assoc, Nat.add_comm 1]
      · subst own
        exact Or.inr (Or.inl inside)
      · exact Or.inr (Or.inr (Or.inr ⟨other, among, inside⟩))

section Document

variable {document : Document} {found : Xml.Tag × Xml.Content}

/-- The objects after the moves: the root, those in the content that was left, and
the moved ones with what is inside of them. -/
theorem mem_placements_floatedUp (hasList : document.objects? = some found)
    (placed : Placement) :
    placed ∈ (floatedUp document).placements ↔
      (document.root.tag.isNamed objectLabel = true ∧
        placed = ⟨document.root.tag, [], 0, false⟩) ∨
      placed ∈ placementsIn document.aroundRoot false true 0 (liftedContent document).1 ∨
      (∃ position declaration,
        (deepestFirst (liftedContent document).2)[position]? = some declaration ∧
        placed = ⟨declaration.tag, [], document.topLevel.length + position, true⟩) ∨
      ∃ declaration ∈ (liftedContent document).2, placed ∈ declaration.inside := by
  have first : ((liftedContent document).1.named objectsLabel).head? =
      some (found.1, (lift [] 0 found.2).1) := by
    unfold Document.objects? at hasList
    unfold liftedContent
    rw [named_objects_lift, List.head?_map, hasList]
    rfl
  have sameLength : (childObjects (lift [] 0 found.2).1).length = document.topLevel.length := by
    have tags := congrArg List.length (topTags_lift found.2 0)
    unfold Document.topLevel Document.topObjects
    rw [hasList]
    simpa using tags
  rw [Document.mem_placements, aroundRoot_floatedUp]
  simp only [floatedUp, Document.withContent]
  rw [placementsIn_modifyFirst _ _ _ _ _ first,
    mem_placementsIn_forestOf (floated_isNamed document), sameLength]
  simp only [mem_deepestFirst]

/-- An object that does not move stands where it stood, with the chain around it cut. -/
theorem kept_mem_floatedUp (hasList : document.objects? = some found) {placed : Placement}
    (member : placed ∈ document.placements) (stays : placed.moves = false) :
    placed.kept ∈ (floatedUp document).placements := by
  rw [mem_placements_floatedUp hasList]
  rcases Document.mem_placements.1 member with ⟨object, here⟩ | inside
  · rw [here]
    exact Or.inl ⟨object, rfl⟩
  · rcases mem_placementsLifted.1 (lift_placements _ _ _ (chainOfRoot_isEmpty document) _ _ _
        placed inside stays) with left | floated
    · rw [keptAround_aroundRoot] at left
      exact Or.inr (Or.inl left)
    · exact Or.inr (Or.inr (Or.inr floated))

/-- An object after the moves is a moved one at the end of the top-level objects, or
comes from an object of the document. -/
theorem origin_floatedUp (hasList : document.objects? = some found) {after : Placement}
    (member : after ∈ (floatedUp document).placements) :
    ComesFrom document.placements after ∨
    ∃ position declaration,
      (deepestFirst (liftedContent document).2)[position]? = some declaration ∧
      after = ⟨declaration.tag, [], document.topLevel.length + position, true⟩ := by
  have origins := lift_origins document.root.content (chainOfRoot document)
    document.aroundRoot (chainOfRoot_isEmpty document) false true 0 after
  rw [mem_placementsLifted, keptAround_aroundRoot] at origins
  have below : ∀ placed ∈ placementsIn document.aroundRoot false true 0 document.root.content,
      placed ∈ document.placements := fun placed inside =>
    Document.mem_placements.2 (Or.inr inside)
  rcases (mem_placements_floatedUp hasList after).1 member with
    ⟨object, here⟩ | left | moved | ⟨declaration, among, inside⟩
  · refine Or.inl ⟨after, Document.mem_placements.2 (Or.inl ⟨object, here⟩), Or.inl ?_⟩
    rw [here]
    exact ⟨rfl, rfl⟩
  · exact Or.inl ((origins (Or.inl left)).mono below)
  · exact Or.inr moved
  · exact Or.inl ((origins (Or.inr ⟨declaration, among, inside⟩)).mono below)

/-- A moved declaration was a nested one, and its full name is more than its own. -/
theorem floated_origin (document : Document) :
    ∀ declaration ∈ deepestFirst (liftedContent document).2,
      ∃ placed ∈ document.placements, placed.moves = true ∧ ∃ outer ≠ [],
        declaration.tag = placed.tag.set "name"
          (Text.joinAll scopeMark (outer ++ [ownName placed.tag placed.index])) := by
  intro declaration among
  obtain ⟨_, placed, inside, origin⟩ := lift_floated document.root.content _
    document.aroundRoot (chainOfRoot_isEmpty document) false true 0 declaration
    (mem_deepestFirst.1 among)
  exact ⟨placed, Document.mem_placements.2 (Or.inr inside), origin⟩

/-- After the moves no abstract object is right under an object. -/
theorem not_moves_floatedUp (hasList : document.objects? = some found) :
    ∀ after ∈ (floatedUp document).placements, after.moves = false := by
  intro after member
  rcases origin_floatedUp hasList member with ⟨placed, _, how⟩ | ⟨position, declaration, _, top⟩
  · rcases how with ⟨stays, same⟩ | ⟨_, full, reference⟩
    · rw [same, moves_kept, stays]
    · simp [Placement.moves, reference, has_abstract_referenceTo]
  · simp [Placement.moves, top]

/-- The tags after the moves: unchanged ones, references and renamed declarations. -/
theorem objectTags_floatedUp (hasList : document.objects? = some found) {after : Xml.Tag}
    (member : after ∈ (floatedUp document).objectTags) :
    ∃ before ∈ document.objectTags, after = before ∨ ∃ full,
      after = referenceTo full before ∨ after = before.set "name" full := by
  obtain ⟨placed, place, same⟩ := Document.mem_objectTags.1 member
  rcases origin_floatedUp hasList place with
    ⟨origin, among, how⟩ | ⟨position, declaration, standsAt, top⟩
  · refine ⟨origin.tag, Document.mem_objectTags.2 ⟨origin, among, rfl⟩, ?_⟩
    rcases how with ⟨_, kept⟩ | ⟨_, full, reference⟩
    · rw [← same, kept]
      exact Or.inl rfl
    · rw [← same]
      exact Or.inr ⟨full, Or.inl reference⟩
  · obtain ⟨origin, among, _, outer, _, renamed⟩ :=
      floated_origin document declaration (List.mem_of_getElem? standsAt)
    refine ⟨origin.tag, Document.mem_objectTags.2 ⟨origin, among, rfl⟩, ?_⟩
    rw [← same, top]
    exact Or.inr ⟨_, Or.inr renamed⟩

end Document

end EoAssembly.Pass
