import EoAssembly.Pass.Sequence
import EoAssembly.Proofs.Ordered
import EoAssembly.Proofs.Pass.FloatedDocument
import EoAssembly.Proofs.Pass.Resolution

/-!
Contract: what the passes bring every document into.

The passes fail on a document without a list of top-level objects and on no
other one.  In what they answer, markers are gone, declarations are at the top,
references lead to declarations in scope, and every other name has a dot.

Owns `NormalForm`, the parts `prepared`, `lifted` and `settled` of the sequence,
and the placements of its result.

Does not own: what a pass does to one object, or what a search finds.
-/

namespace EoAssembly

open Pass (declaredBy? resolved qualified withoutObjects)

/-- The form of an optimized document. -/
structure NormalForm (document : Document) : Prop where
  /-- No object is marked with a level or as global. -/
  unmarked : ∀ tag ∈ document.objectTags, tag.has "level" = false ∧ tag.has "global" = false
  /-- A top-level object refers to another one or is abstract. -/
  topDeclares : ∀ object ∈ document.topObjects,
    object.1.has "base" = true ∨ object.1.has "abstract" = true
  /-- No abstract object is right under an object. -/
  flat : ∀ object ∈ document.allObjects, ∀ child ∈ Document.childObjects object.2,
    child.1.has "abstract" = false
  /-- A reference is the line of another object in scope that bears the name. -/
  refersInScope : ∀ placed ∈ document.placements, ∀ line, placed.tag.get? "ref" = some line →
    ∃ base, placed.tag.get? "base" = some base ∧
      some ⟨base, line⟩ ∈ placed.scope document.topLevel
  /-- A name that is no reference and leads to another object has a dot. -/
  dotted : ∀ tag ∈ document.objectTags, tag.get? "ref" = none → ∀ base,
    tag.get? "base" = some base → base ≠ "" → Document.isReflexive base = false →
    Text.holds '.' base = true

/-- A foreign name of a document in normal form is that of the tuple object or
comes from an object whose base is empty or has a dot. -/
theorem NormalForm.foreignNames {document : Document} (normal : NormalForm document) :
    ∀ name ∈ document.foreignNames, name = Document.tupleName ∨
      ∃ tag ∈ document.objectTags, Document.foreignName? tag = some name ∧
        ∃ base, tag.get? "base" = some base ∧ (base = "" ∨ Text.holds '.' base = true) := by
  intro name listed
  have among : name = Document.tupleName ∨
      name ∈ document.allObjects.filterMap fun object => Document.foreignName? object.1 := by
    have referred := Ordered.mem_names.1 listed
    split at referred
    · exact List.mem_cons.1 referred
    · exact Or.inr referred
  refine among.imp_right fun referred => ?_
  obtain ⟨object, member, foreign⟩ := List.mem_filterMap.1 referred
  have listedTag : object.1 ∈ document.objectTags := List.mem_map.2 ⟨object, member, rfl⟩
  refine ⟨object.1, listedTag, foreign, ?_⟩
  have tests : Document.foreignTests.all (fun test => test.2 object.1) = true := by
    by_cases passes : Document.foreignTests.all (fun test => test.2 object.1) = true
    · exact passes
    · simp [Document.foreignName?, passes] at foreign
  simp only [Document.foreignTests, List.all_cons, List.all_nil, Bool.and_true,
    Bool.and_eq_true, Document.hasBase, Document.notReflexive, Document.notResolved,
    Bool.not_eq_true', Xml.Tag.has] at tests
  obtain ⟨hasBase, leads, unresolved⟩ := tests
  obtain ⟨base, based⟩ := Option.isSome_iff_exists.1 hasBase
  have noRef : object.1.get? "ref" = none := by simpa using unresolved
  refine ⟨base, based, ?_⟩
  by_cases empty : base = ""
  · exact Or.inl empty
  · right
    rw [based] at leads
    exact normal.dotted object.1 listedTag noRef base based empty (by simpa using leads)

namespace Document

/-- An object right under another one has that one around it. -/
theorem childObjects_allNamed (content : Xml.Content) (around : List Enclosing)
    (atTop awaited : Bool) (index : Nat) :
    ∀ object ∈ content.allNamed objectLabel, ∀ child ∈ childObjects object.2,
      ∃ placed ∈ placementsIn around atTop awaited index content,
        placed.tag = child.1 ∧ placed.around ≠ [] := by
  induction content generalizing around atTop awaited index with
  | nil => simp [Xml.Content.allNamed]
  | leaf node rest inductionHypothesis => exact inductionHypothesis around atTop awaited index
  | element tag children rest innerHypothesis restHypothesis =>
    intro object member child among
    by_cases isObject : tag.isNamed objectLabel = true
    · simp only [Xml.Content.allNamed, isObject, if_true, List.mem_append,
        List.mem_singleton] at member
      simp only [mem_placementsIn_object isObject]
      rcases member with (here | inside) | behind
      · rw [here] at among
        obtain ⟨position, found⟩ := List.getElem?_of_mem among
        have place := childObjects_placed (enclosingOf tag children :: around) false false 0
          position child found
        exact ⟨_, Or.inr (Or.inl place), rfl, by simp⟩
      · obtain ⟨placed, place, rest⟩ := innerHypothesis
          (enclosingOf tag children :: around) false false 0 object inside child among
        exact ⟨placed, Or.inr (Or.inl place), rest⟩
      · obtain ⟨placed, place, rest⟩ :=
          restHypothesis around atTop awaited (index + 1) object behind child among
        exact ⟨placed, Or.inr (Or.inr place), rest⟩
    · simp only [Xml.Content.allNamed, isObject, Bool.false_eq_true, if_false,
        List.nil_append, List.mem_append] at member
      simp only [mem_placementsIn_other isObject]
      rcases member with inside | behind
      · obtain ⟨placed, place, rest⟩ := innerHypothesis []
          (awaited && tag.isNamed objectsLabel) false 0 object inside child among
        exact ⟨placed, Or.inl place, rest⟩
      · obtain ⟨placed, place, rest⟩ := restHypothesis around atTop
          (awaited && !(awaited && tag.isNamed objectsLabel)) index object behind child among
        exact ⟨placed, Or.inr place, rest⟩

theorem childObjects_placements {document : Document} {object child : Xml.Tag × Xml.Content}
    (member : object ∈ document.allObjects) (among : child ∈ childObjects object.2) :
    ∃ placed ∈ document.placements, placed.tag = child.1 ∧ placed.around ≠ [] := by
  have whole : document.allObjects =
      (if document.root.tag.isNamed objectLabel then
        [(document.root.tag, document.root.content)] else []) ++
      document.root.content.allNamed objectLabel := by
    simp [allObjects, Document.whole, Xml.Content.allNamed]
  rw [whole, List.mem_append] at member
  rcases member with root | inside
  · split at root
    · next isObject =>
      rw [List.mem_singleton.1 root] at among
      obtain ⟨position, found⟩ := List.getElem?_of_mem among
      have place := childObjects_placed document.aroundRoot false true 0 position child found
      exact ⟨_, mem_placements.2 (Or.inr place), rfl, by simp [aroundRoot, isObject]⟩
    · exact absurd root (by simp)
  · obtain ⟨placed, place, rest⟩ := childObjects_allNamed document.root.content
      document.aroundRoot false true 0 object inside child among
    exact ⟨placed, mem_placements.2 (Or.inr place), rest⟩

end Document

namespace Pass

/-! ## The passes before the declarations move -/

/-- A document as the declarations start to move. -/
def prepared (document : Document) : Document := removeRefs (globalsToAbstracts document)

theorem childObjects_mapTop {change : Xml.Tag → Xml.Tag}
    (named : ∀ tag, (change tag).isNamed objectLabel = tag.isNamed objectLabel)
    (content : Xml.Content) :
    Document.childObjects (Document.mapTop change content) =
      (Document.childObjects content).map fun object => (change object.1, object.2) := by
  unfold Document.childObjects
  induction content with
  | nil => rfl
  | leaf node rest inductionHypothesis => exact inductionHypothesis
  | element tag children rest _ restHypothesis =>
    by_cases object : tag.isNamed objectLabel = true
    · simp [Document.mapTop, Xml.Content.named, object, named, restHypothesis]
    · simp [Document.mapTop, Xml.Content.named, object, restHypothesis]

theorem isNamed_declareAbstract (tag : Xml.Tag) :
    (declareAbstract tag).isNamed objectLabel = tag.isNamed objectLabel := by
  unfold declareAbstract
  split <;> rfl

theorem declareAbstract_declares (tag : Xml.Tag) :
    (declareAbstract tag).has "base" = true ∨ (declareAbstract tag).has "abstract" = true := by
  unfold declareAbstract
  split
  · next either => simpa using either
  · exact Or.inr (Xml.Tag.has_set_same tag "abstract" "")

/-- The list of top-level objects is there as before. -/
theorem objects?_prepared (document : Document) :
    (prepared document).objects? = none ↔ document.objects? = none := by
  unfold prepared removeRefs strip
  rw [Document.objects?_mapObjects
    (Document.keepsPlace_remove (by decide) (by decide) (by decide))]
  unfold globalsToAbstracts strip
  rw [Document.objects?_mapObjects
    (Document.keepsPlace_remove (by decide) (by decide) (by decide))]
  unfold Document.objects? Document.withContent
  rw [named_modifyFirst]
  simp

theorem prepared_marks (document : Document) :
    ∀ tag ∈ (prepared document).objectTags,
      tag.has "global" = false ∧ tag.get? "ref" = none := by
  intro tag member
  unfold prepared removeRefs strip at member
  rw [Document.objectTags_mapObjects
    (Document.keepsPlace_remove (by decide) (by decide) (by decide))] at member
  obtain ⟨before, among, same⟩ := List.mem_map.1 member
  unfold globalsToAbstracts strip at among
  rw [Document.objectTags_mapObjects
    (Document.keepsPlace_remove (by decide) (by decide) (by decide))] at among
  obtain ⟨first, _, sameFirst⟩ := List.mem_map.1 among
  rw [← same, Xml.Tag.has_remove_other _ (by decide), ← sameFirst]
  exact ⟨Xml.Tag.has_remove_same first "global", Xml.Tag.get?_remove_same _ "ref"⟩

theorem prepared_declares (document : Document) :
    ∀ tag ∈ (prepared document).topObjects.map Prod.fst,
      tag.has "base" = true ∨ tag.has "abstract" = true := by
  intro tag member
  unfold prepared removeRefs strip at member
  rw [Document.topObjects_mapObjects
    (Document.keepsPlace_remove (by decide) (by decide) (by decide))] at member
  unfold globalsToAbstracts strip at member
  rw [Document.topObjects_mapObjects
    (Document.keepsPlace_remove (by decide) (by decide) (by decide))] at member
  simp only [List.map_map, List.mem_map, Function.comp_apply] at member
  obtain ⟨object, among, same⟩ := member
  have declares : object.1.has "base" = true ∨ object.1.has "abstract" = true := by
    unfold Document.topObjects Document.objects? Document.withContent at among
    rw [named_modifyFirst] at among
    cases first : (document.root.content.named objectsLabel).head? with
    | none => simp [first] at among
    | some found =>
      simp only [first, Option.map_some] at among
      rw [childObjects_mapTop isNamed_declareAbstract] at among
      obtain ⟨origin, _, changed⟩ := List.mem_map.1 among
      rw [← changed]
      exact declareAbstract_declares origin.1
  rw [← same]
  simpa [Xml.Tag.has_remove_other] using declares

/-! ## The passes after the declarations moved -/

/-- A document whose references are ready to be searched. -/
def lifted (document : Document) : Document := removeLevels (floatedUp (prepared document))

/-- A document with its names settled. -/
def settled (document : Document) : Document := fixMissedNames (addRefs (lifted document))

theorem keepsPlace_removeLevel : Document.KeepsPlace fun tag => tag.remove "level" :=
  Document.keepsPlace_remove (by decide) (by decide) (by decide)

theorem prepared_objects? {document : Document} {found : Xml.Tag × Xml.Content}
    (hasList : document.objects? = some found) :
    ∃ list, (prepared document).objects? = some list := by
  cases after : (prepared document).objects? with
  | some list => exact ⟨list, rfl⟩
  | none =>
    rw [(objects?_prepared document).1 after] at hasList
    exact absurd hasList (by simp)

theorem topLevel_lifted (document : Document) :
    (lifted document).topLevel = (floatedUp (prepared document)).topLevel :=
  Document.topLevel_mapObjects keepsPlace_removeLevel _

theorem placements_lifted (document : Document) :
    (lifted document).placements = (floatedUp (prepared document)).placements.map
      (Placement.mapTag fun tag => tag.remove "level") :=
  Document.placements_mapObjects keepsPlace_removeLevel _

/-- Before the search no object has a marker or a reference. -/
theorem lifted_marks {document : Document} {found : Xml.Tag × Xml.Content}
    (hasList : document.objects? = some found) :
    ∀ tag ∈ (lifted document).objectTags,
      tag.has "level" = false ∧ tag.has "global" = false ∧ tag.get? "ref" = none := by
  intro tag member
  obtain ⟨list, hasListAfter⟩ := prepared_objects? hasList
  unfold lifted removeLevels strip at member
  rw [Document.objectTags_mapObjects keepsPlace_removeLevel] at member
  obtain ⟨after, among, same⟩ := List.mem_map.1 member
  obtain ⟨before, origin, how⟩ := objectTags_floatedUp hasListAfter among
  obtain ⟨noGlobal, noRef⟩ := prepared_marks document before origin
  have kept : after.has "global" = false ∧ after.get? "ref" = none := by
    rcases how with unchanged | ⟨full, reference | renamed⟩
    · rw [unchanged]
      exact ⟨noGlobal, noRef⟩
    · rw [reference]
      simp [Xml.Tag.has, get?_referenceTo]
    · rw [renamed, Xml.Tag.has_set_other _ full (by decide),
        Xml.Tag.get?_set_other _ full (by decide)]
      exact ⟨noGlobal, noRef⟩
  rw [← same]
  refine ⟨Xml.Tag.has_remove_same after "level", ?_, ?_⟩
  · rw [Xml.Tag.has_remove_other _ (by decide)]
    exact kept.1
  · rw [Xml.Tag.get?_remove_other _ (by decide)]
    exact kept.2

/-- Before the search every top-level object has a base or is abstract. -/
theorem lifted_declares {document : Document} {found : Xml.Tag × Xml.Content}
    (hasList : document.objects? = some found) :
    ∀ tag ∈ (lifted document).topObjects.map Prod.fst,
      tag.has "base" = true ∨ tag.has "abstract" = true := by
  intro tag member
  obtain ⟨list, hasListAfter⟩ := prepared_objects? hasList
  unfold lifted removeLevels strip at member
  rw [Document.topObjects_mapObjects keepsPlace_removeLevel] at member
  simp only [List.map_map, List.mem_map, Function.comp_apply] at member
  obtain ⟨object, among, same⟩ := member
  rw [← same, Xml.Tag.has_remove_other _ (by decide), Xml.Tag.has_remove_other _ (by decide)]
  have listed : object.1 ∈ (floatedUp (prepared document)).topObjects.map Prod.fst :=
    List.mem_map.2 ⟨object, among, rfl⟩
  rw [topTags_floatedUp hasListAfter, List.mem_append] at listed
  rcases listed with before | moved
  · exact prepared_declares document object.1 before
  · obtain ⟨declaration, member, sameTag⟩ := List.mem_map.1 moved
    obtain ⟨placed, _, moves, full, _, renamed⟩ :=
      floated_origin (prepared document) declaration member
    right
    rw [← sameTag, renamed, Xml.Tag.has_set_other _ _ (by decide)]
    simp only [Placement.moves, Bool.and_eq_true] at moves
    exact moves.2

/-- Before the search no abstract object is right under an object. -/
theorem lifted_flat {document : Document} {found : Xml.Tag × Xml.Content}
    (hasList : document.objects? = some found) :
    ∀ placed ∈ (lifted document).placements, placed.moves = false := by
  intro placed member
  obtain ⟨list, hasListAfter⟩ := prepared_objects? hasList
  rw [placements_lifted] at member
  obtain ⟨after, among, same⟩ := List.mem_map.1 member
  have stays := not_moves_floatedUp hasListAfter after among
  rw [← same]
  unfold Placement.moves Placement.mapTag at *
  rw [Xml.Tag.has_remove_other _ (by decide)]
  exact stays

/-! ## The result -/

theorem topLevel_settled (document : Document) :
    (settled document).topLevel = (lifted document).topLevel := by
  unfold settled fixMissedNames
  rw [Document.topLevel_mapObjects keepsPlace_qualified, topLevel_addRefs]

/-- Every object of the result is one from before the search, resolved where it
stands and qualified. -/
theorem placements_settled (document : Document) :
    (settled document).placements = (lifted document).placements.map fun placed =>
      (placed.resolve (lifted document).topLevel).mapTag qualified := by
  unfold settled fixMissedNames
  rw [Document.placements_mapObjects keepsPlace_qualified, placements_addRefs, List.map_map]
  rfl

theorem mem_objectTags_settled {document : Document} {tag : Xml.Tag}
    (member : tag ∈ (settled document).objectTags) :
    ∃ placed ∈ (lifted document).placements,
      tag = qualified (resolved (placed.levels (lifted document).topLevel) placed.tag) := by
  obtain ⟨after, place, same⟩ := Document.mem_objectTags.1 member
  rw [placements_settled] at place
  obtain ⟨placed, among, result⟩ := List.mem_map.1 place
  refine ⟨placed, among, ?_⟩
  rw [← same, ← result]
  rfl

/-- What the search finds for an object is its reference, and its base stays. -/
theorem reference_settled {placed : Placement} {top : ScopeLevel} {line : String}
    (unresolved : placed.tag.get? "ref" = none)
    (reference : ((placed.resolve top).mapTag qualified).tag.get? "ref" = some line) :
    ∃ base, ((placed.resolve top).mapTag qualified).tag.get? "base" = some base ∧
      (placed.levels top).findSome? (lineIn? base) = some line := by
  unfold Placement.mapTag Placement.resolve at *
  simp only at reference ⊢
  rw [get?_qualified_other _ (by decide)] at reference
  have same : qualified (resolved (placed.levels top) placed.tag) =
      resolved (placed.levels top) placed.tag := by
    apply qualified_of_ref
    simp [Xml.Tag.has, reference]
  rw [same, get?_resolved_other _ _ (by decide)]
  rw [get?_resolved_ref unresolved] at reference
  cases based : placed.tag.get? "base" with
  | none => simp [based] at reference
  | some base =>
    rw [based] at reference
    exact ⟨base, rfl, reference⟩

theorem settled_refersInScope {document : Document} {found : Xml.Tag × Xml.Content}
    (hasList : document.objects? = some found) :
    ∀ placed ∈ (settled document).placements, ∀ line, placed.tag.get? "ref" = some line →
      ∃ base, placed.tag.get? "base" = some base ∧
        some ⟨base, line⟩ ∈ placed.scope (settled document).topLevel := by
  intro after member line reference
  rw [placements_settled] at member
  obtain ⟨placed, among, result⟩ := List.mem_map.1 member
  have unresolved := (lifted_marks hasList placed.tag
    (Document.mem_objectTags.2 ⟨placed, among, rfl⟩)).2.2
  rw [← result] at reference ⊢
  obtain ⟨base, based, search⟩ := reference_settled unresolved reference
  refine ⟨base, based, ?_⟩
  obtain ⟨level, listed, entry⟩ := mem_of_findSome?_lineIn? search
  rw [topLevel_settled]
  have sameScope : ((placed.resolve (lifted document).topLevel).mapTag qualified).scope
      (lifted document).topLevel = placed.scope (lifted document).topLevel := rfl
  rw [sameScope, ← Placement.flatten_levels]
  exact List.mem_flatten.2 ⟨level, listed, entry⟩

/-- What the passes answer is in normal form. -/
theorem normalForm_settled {document : Document} {found : Xml.Tag × Xml.Content}
    (hasList : document.objects? = some found) : NormalForm (settled document) where
  unmarked tag member := by
    obtain ⟨placed, among, same⟩ := mem_objectTags_settled member
    obtain ⟨noLevel, noGlobal, _⟩ := lifted_marks hasList placed.tag
      (Document.mem_objectTags.2 ⟨placed, among, rfl⟩)
    unfold Xml.Tag.has at *
    rw [same, get?_qualified_other _ (by decide), get?_qualified_other _ (by decide),
      get?_resolved_other _ _ (by decide), get?_resolved_other _ _ (by decide)]
    exact ⟨noLevel, noGlobal⟩
  topDeclares object member := by
    unfold settled fixMissedNames at member
    rw [Document.topObjects_mapObjects keepsPlace_qualified] at member
    obtain ⟨after, among, same⟩ := List.mem_map.1 member
    obtain ⟨before, origin, levels, resolution⟩ :=
      topObjects_addRefs (lifted document) after among
    have declares := lifted_declares hasList before.1 (List.mem_map.2 ⟨before, origin, rfl⟩)
    rw [← same]
    simp only [has_base_qualified, keepsPlace_qualified.isAbstract, resolution,
      has_abstract_resolved]
    unfold Xml.Tag.has at *
    rw [get?_resolved_other _ _ (by decide)]
    exact declares
  flat object member child among := by
    obtain ⟨after, place, same, inside⟩ := Document.childObjects_placements member among
    rw [placements_settled] at place
    obtain ⟨placed, origin, result⟩ := List.mem_map.1 place
    have stays := lifted_flat hasList placed origin
    rw [← same, ← result]
    simp only [Placement.mapTag, Placement.resolve, keepsPlace_qualified.isAbstract,
      has_abstract_resolved]
    have enclosed : placed.around ≠ [] := by
      rw [← result] at inside
      exact inside
    simpa [Placement.moves, enclosed] using stays
  refersInScope := settled_refersInScope hasList
  dotted tag member noRef base based nonempty leads := by
    obtain ⟨placed, _, same⟩ := mem_objectTags_settled member
    rw [same] at noRef based
    exact holds_dot_qualified noRef based nonempty leads

theorem brokenRefs_settled {document : Document} {found : Xml.Tag × Xml.Content}
    (hasList : document.objects? = some found) :
    brokenRefs (settled document) = .ok (settled document) := by
  apply brokenRefs_ok
  intro tag member line reference
  obtain ⟨placed, place, same⟩ := Document.mem_objectTags.1 member
  rw [← same] at reference
  obtain ⟨base, _, entry⟩ := settled_refersInScope hasList placed place line reference
  obtain ⟨other, among, declares⟩ := Document.mem_scope place entry
  refine ⟨other, among, ?_⟩
  unfold declaredBy? at declares
  split at declares
  · next name own _ lined =>
    rw [lined]
    exact congrArg some (congrArg Declared.line (Option.some.inj declares))
  · exact absurd declares (by simp)

/-! ## The whole sequence -/

theorem optimized_ok {document : Document} {found : Xml.Tag × Xml.Content}
    (hasList : document.objects? = some found) :
    optimized document = .ok (settled document) := by
  obtain ⟨list, hasListAfter⟩ := prepared_objects? hasList
  have moved := abstractsFloatUp_ok hasListAfter
  have unbroken := brokenRefs_settled hasList
  unfold settled lifted prepared at *
  simp only [optimized, all, runAll, moved, unbroken]

theorem optimized_error {document : Document} (noList : document.objects? = none) :
    optimized document = .error (withoutObjects document.label) := by
  have stopped := abstractsFloatUp_error ((objects?_prepared document).2 noList)
  unfold prepared at stopped
  simp only [optimized, all, runAll, stopped]
  rfl

end Pass

/-- The passes fail on documents without a list of top-level objects only, where the
third pass does, and bring all others into normal form. -/
theorem optimized_normalForm (document : Document) :
    (∀ failure, Pass.optimized document = .error failure ↔
      document.objects? = none ∧ failure = withoutObjects document.label) ∧
    (document.objects? = none → ∃ before, Pass.runAll (Pass.all.take 2) document = .ok before ∧
      Pass.abstractsFloatUp before = .error (withoutObjects document.label)) ∧
    ∀ result, Pass.optimized document = .ok result → NormalForm result ∧
      ∀ name ∈ result.foreignNames, name = Document.tupleName ∨
        ∃ tag ∈ result.objectTags, Document.foreignName? tag = some name ∧
          ∃ base, tag.get? "base" = some base ∧ (base = "" ∨ Text.holds '.' base = true) := by
  cases hasList : document.objects? with
  | none =>
    rw [Pass.optimized_error hasList]
    refine ⟨fun failure => ?_, fun _ => ⟨Pass.prepared document, rfl, ?_⟩, ?_⟩
    · simp [eq_comm]
    · exact Pass.abstractsFloatUp_error ((Pass.objects?_prepared document).2 hasList)
    · simp
  | some found =>
    rw [Pass.optimized_ok hasList]
    refine ⟨fun failure => ?_, fun none => ?_, fun result same => ?_⟩
    · simp
    · exact absurd none (by simp)
    · rw [← Except.ok.inj same]
      have normal := Pass.normalForm_settled hasList
      exact ⟨normal, normal.foreignNames⟩

end EoAssembly
