import EoAssembly.Proofs.Document.Elements
import EoAssembly.Proofs.Pass.Declared
import EoAssembly.Proofs.Pass.NormalForm
import EoAssembly.Proofs.Pass.ScopeKept
import EoAssembly.Proofs.Path

/-!
Contract: a document in its optimized form stays as it is.

The first three passes and the fourth find nothing to do in an optimized document but its
references, which go away.  Without them it is the document before the search, where some names
have moved into the default package.  The search finds every other name again where it found it
before, and it finds a moved one nowhere, because a moved name has a dot and no declaration has.

Owns the fixed points of single passes, `settled` of a document without its references, and the
passes of an optimized document.
-/

namespace EoAssembly

/-! ## Attributes and names -/

namespace Xml.Tag

theorem remove_absent {tag : Tag} {key : String} (absent : tag.has key = false) :
    tag.remove key = tag := by
  have none : ∀ item ∈ tag.attributes, ¬item.name.isPlain key = true := by
    simpa [has, get?] using absent
  unfold remove
  rw [List.filter_eq_self.2 fun item member => by simpa using none item member]

/-- An attribute that was missing is set at the end, and goes away without a trace. -/
theorem remove_set {tag : Tag} {key : String} (absent : tag.has key = false) (value : String) :
    (tag.set key value).remove key = tag := by
  have none : ∀ item ∈ tag.attributes, ¬item.name.isPlain key = true := by
    simpa [has, get?] using absent
  have atEnd : ∀ attributes : List Attribute,
      (∀ item ∈ attributes, ¬item.name.isPlain key = true) →
      setIn key value attributes = attributes ++ [⟨.plain key, value⟩] := by
    intro attributes apart
    induction attributes with
    | nil => rfl
    | cons item rest inductionHypothesis =>
      have later := inductionHypothesis fun other member =>
        apart other (List.mem_cons_of_mem item member)
      simp [setIn, apart item List.mem_cons_self, later]
  have kept := remove_absent absent
  unfold remove at kept ⊢
  simp only [set, atEnd _ none, List.filter_append]
  have gone : ([⟨.plain key, value⟩] : List Attribute).filter
      (fun item => !item.name.isPlain key) = [] := by
    simp [Name.plain, Name.isPlain]
  rw [gone, List.append_nil]
  exact kept

end Xml.Tag

theorem Xml.Content.mapNamed_id {label : String} {change : Xml.Tag → Xml.Tag}
    (content : Xml.Content)
    (same : ∀ found ∈ content.allNamed label, change found.1 = found.1) :
    content.mapNamed label change = content := by
  induction content with
  | nil => rfl
  | leaf node rest inductionHypothesis =>
    exact congrArg (Xml.Content.leaf node) (inductionHypothesis same)
  | element tag children rest innerHypothesis restHypothesis =>
    simp only [allNamed, List.mem_append] at same
    have inner := innerHypothesis fun found member => same found (Or.inl (Or.inr member))
    have later := restHypothesis fun found member => same found (Or.inr member)
    have own : (if tag.isNamed label then change tag else tag) = tag := by
      split
      · next here => exact same (tag, children) (Or.inl (Or.inl (by simp [here])))
      · rfl
    rw [mapNamed, own, inner, later]

theorem Document.mapObjects_id {document : Document} {change : Xml.Tag → Xml.Tag}
    (same : ∀ tag ∈ document.objectTags, change tag = tag) :
    document.mapObjects change = document := by
  have whole : document.whole.mapNamed objectLabel change = document.whole :=
    Xml.Content.mapNamed_id _ fun found member =>
      same found.1 (List.mem_map.2 ⟨found, member, rfl⟩)
  unfold mapObjects
  rw [whole]
  rfl

namespace Pass

open Document (childObjects tagsIn placementsIn)

/-- Whether an object has no name with a dot. -/
def Undotted (tag : Xml.Tag) : Prop :=
  ∀ name, tag.get? "name" = some name → Text.holds '.' name = false

/-- Whether a level declares no name with a dot. -/
def PlainLevel (level : ScopeLevel) : Prop :=
  ∀ declared, some declared ∈ level → Text.holds '.' declared.name = false

theorem name_of_declaredBy? {tag : Xml.Tag} {declared : Declared}
    (declares : declaredBy? tag = some declared) : tag.get? "name" = some declared.name := by
  unfold declaredBy? at declares
  split at declares
  · next name line named _ => rw [named, ← Option.some.inj declares]
  · exact absurd declares (by simp)

theorem plainLevel_of_tags {content : Xml.Content} (undotted : ∀ tag ∈ tagsIn content, Undotted tag) :
    PlainLevel (levelOf content) := by
  intro declared listed
  obtain ⟨object, among, declares⟩ := List.mem_map.1 listed
  have member : object.1 ∈ tagsIn content := by
    unfold tagsIn
    rw [Xml.Content.allNamed_eq]
    obtain ⟨inside, isObject, _⟩ := Xml.Content.mem_named among
    exact List.mem_map.2 ⟨object, List.mem_filter.2 ⟨inside, isObject⟩, rfl⟩
  exact undotted object.1 member declared.name (name_of_declaredBy? declares)

/-- No search finds a name with a dot where none is declared. -/
theorem search_dotted {base : String} {levels : List ScopeLevel}
    (plain : ∀ level ∈ levels, PlainLevel level) (dotted : Text.holds '.' base = true) :
    levels.findSome? (lineIn? base) = none := by
  cases search : levels.findSome? (lineIn? base) with
  | none => rfl
  | some line =>
    obtain ⟨level, member, entry⟩ := mem_of_findSome?_lineIn? search
    rw [plain level member _ entry] at dotted
    exact absurd dotted (by decide)

/-! ## One object, twice -/

theorem holds_dot_package (base : String) : Text.holds '.' s!"{defaultPackage}.{base}" = true := by
  simp only [Text.holds, String.toList_append, List.contains_eq_mem, List.mem_append,
    decide_eq_true_eq]
  exact Or.inl (Or.inr (by decide))

/-- What becomes of an object in the search and behind it. -/
def settledTag (levels : List ScopeLevel) (tag : Xml.Tag) : Xml.Tag :=
  qualified (resolved levels tag)

section Twice

variable {levels : List ScopeLevel} {tag : Xml.Tag}

theorem isNamed_settledTag (label : String) :
    (settledTag levels tag).isNamed label = tag.isNamed label := by
  unfold settledTag
  rw [keepsPlace_qualified.named, isNamed_resolved]

/-- A resolved object without its reference is the object, and is resolved as before. -/
theorem settledTag_again (bare : tag.has "ref" = false)
    (plain : ∀ level ∈ levels, PlainLevel level) :
    settledTag levels ((settledTag levels tag).remove "ref") = settledTag levels tag := by
  cases based : tag.get? "base" with
  | none =>
    have same : settledTag levels tag = tag := by simp [settledTag, resolved, qualified, based]
    rw [same, Xml.Tag.remove_absent bare, same]
  | some base =>
    cases search : levels.findSome? (lineIn? base) with
    | some line =>
      have same : settledTag levels tag = tag.set "ref" line := by
        have refers : resolved levels tag = tag.set "ref" line := by simp [resolved, based, search]
        rw [settledTag, refers, qualified_of_ref (Xml.Tag.has_set_same tag "ref" line)]
      rw [same, Xml.Tag.remove_set bare, same]
    | none =>
      have missed : resolved levels tag = tag := by simp [resolved, based, search]
      by_cases stays : (tag.has "ref" || base == "" || Text.holds '.' base ||
          Document.isReflexive base) = true
      · have same : settledTag levels tag = tag := by
          rw [settledTag, missed]
          simp only [qualified, based, stays, if_true]
        rw [same, Xml.Tag.remove_absent bare, same]
      · have same : settledTag levels tag = tag.set "base" s!"{defaultPackage}.{base}" := by
          rw [settledTag, missed]
          simp only [qualified, based, stays, Bool.false_eq_true, if_false]
        have bareStill : (tag.set "base" s!"{defaultPackage}.{base}").has "ref" = false := by
          rw [Xml.Tag.has_set_other tag _ (by decide)]
          exact bare
        -- the moved name has a dot: it is declared nowhere, and does not move again
        have missedAgain := search_dotted plain (holds_dot_package base)
        rw [same, Xml.Tag.remove_absent bareStill]
        simp only [settledTag, resolved, qualified, Xml.Tag.get?_set_same, missedAgain,
          holds_dot_package base, Bool.or_true, Bool.true_or, if_true]

end Twice

/-! ## All objects, twice -/

/-- A forest after the search and what comes behind it, without references. -/
def bareOf (content : Xml.Content) : Xml.Content :=
  (content.mapNamed objectLabel qualified).mapNamed objectLabel fun tag => tag.remove "ref"

/-- What the search for names works on: no object refers to a line yet, and no name has a dot. -/
structure Searchable (tag : Xml.Tag) : Prop where
  bare : tag.has "ref" = false
  undotted : Undotted tag

theorem keepsPlace_removeRef : Document.KeepsPlace fun tag => tag.remove "ref" :=
  Document.keepsPlace_remove (by decide) (by decide) (by decide)

theorem levelOf_bareOf (content : Xml.Content) : levelOf (bareOf content) = levelOf content := by
  unfold bareOf
  rw [Document.levelOf_mapNamed keepsPlace_removeRef, Document.levelOf_mapNamed keepsPlace_qualified]

theorem tagsIn_element (tag : Xml.Tag) (children rest : Xml.Content) :
    tagsIn (.element tag children rest) =
      (if tag.isNamed objectLabel then [tag] else []) ++ tagsIn children ++ tagsIn rest := by
  unfold tagsIn
  by_cases object : tag.isNamed objectLabel = true
  · simp [Xml.Content.allNamed, object]
  · simp [Xml.Content.allNamed, object]

section Forest

variable {top : ScopeLevel} (plainTop : PlainLevel top)
include plainTop

theorem plain_levelsFor {chain : List ScopeLevel} (plainChain : ∀ level ∈ chain, PlainLevel level)
    (atTop : Bool) (index : Nat) :
    ∀ level ∈ levelsFor chain top atTop index, PlainLevel level := by
  have without : ∀ {level : ScopeLevel}, PlainLevel level → PlainLevel (withoutObject level index) :=
    fun plain declared listed => plain declared (List.mem_of_mem_eraseIdx listed)
  intro level member
  simp only [levelsFor, List.mem_append, List.mem_singleton] at member
  rcases member with around | isTop
  · cases chain with
    | nil => exact absurd around (by simp)
    | cons innermost outer =>
      rcases List.mem_cons.1 around with own | farther
      · rw [own]
        exact without (plainChain innermost List.mem_cons_self)
      · exact plainChain level (List.mem_cons_of_mem innermost farther)
  · rw [isTop]
    split
    · exact without plainTop
    · exact plainTop

theorem resolveIn_again (content : Xml.Content) (chain : List ScopeLevel) (atTop : Bool)
    (index : Nat) (plainChain : ∀ level ∈ chain, PlainLevel level)
    (searchable : ∀ tag ∈ tagsIn content, Searchable tag) :
    (resolveIn top chain atTop index (bareOf (resolveIn top chain atTop index content))).mapNamed
        objectLabel qualified =
      (resolveIn top chain atTop index content).mapNamed objectLabel qualified := by
  induction content generalizing chain atTop index with
  | nil => rfl
  | leaf node rest inductionHypothesis =>
    exact congrArg (Xml.Content.leaf node) (inductionHypothesis chain atTop index plainChain searchable)
  | element tag children rest innerHypothesis restHypothesis =>
    simp only [tagsIn_element, List.mem_append] at searchable
    have searchableInner := fun other member => searchable other (Or.inl (Or.inr member))
    have searchableLater := fun other member => searchable other (Or.inr member)
    unfold bareOf at innerHypothesis restHypothesis ⊢
    by_cases object : tag.isNamed objectLabel = true
    · have own := searchable tag (Or.inl (Or.inl (by simp [object])))
      have inside : PlainLevel (levelOf children) :=
        plainLevel_of_tags fun other member => (searchableInner other member).undotted
      have inner := innerHypothesis (levelOf children :: chain) false 0
        (by simpa [inside] using plainChain) searchableInner
      have later := restHypothesis chain atTop (index + 1) plainChain searchableLater
      have twice := settledTag_again own.bare (plain_levelsFor plainTop plainChain atTop index)
      have sameLevel := levelOf_bareOf (resolveIn top (levelOf children :: chain) false 0 children)
      rw [levelOf_resolveIn] at sameLevel
      unfold settledTag at twice
      unfold bareOf at sameLevel
      simp only [resolveIn, object, if_true, Xml.Content.mapNamed, isNamed_resolved,
        keepsPlace_qualified.named, Xml.Tag.isNamed_remove, twice, sameLevel, inner, later]
    · have inner := innerHypothesis [] false 0 (by simp) searchableInner
      have later := restHypothesis chain atTop index plainChain searchableLater
      simp only [resolveIn, object, Bool.false_eq_true, if_false, Xml.Content.mapNamed, inner,
        later]

theorem resolveUnderRoot_again (content : Xml.Content) (chain : List ScopeLevel)
    (awaited : Bool) (index : Nat) (plainChain : ∀ level ∈ chain, PlainLevel level)
    (searchable : ∀ tag ∈ tagsIn content, Searchable tag) :
    (resolveUnderRoot top chain awaited index
        (bareOf (resolveUnderRoot top chain awaited index content))).mapNamed objectLabel qualified =
      (resolveUnderRoot top chain awaited index content).mapNamed objectLabel qualified := by
  induction content generalizing awaited index with
  | nil => rfl
  | leaf node rest inductionHypothesis =>
    exact congrArg (Xml.Content.leaf node) (inductionHypothesis awaited index searchable)
  | element tag children rest _ restHypothesis =>
    simp only [tagsIn_element, List.mem_append] at searchable
    have searchableInner := fun other member => searchable other (Or.inl (Or.inr member))
    have searchableLater := fun other member => searchable other (Or.inr member)
    unfold bareOf at restHypothesis ⊢
    by_cases object : tag.isNamed objectLabel = true
    · have own := searchable tag (Or.inl (Or.inl (by simp [object])))
      have inside : PlainLevel (levelOf children) :=
        plainLevel_of_tags fun other member => (searchableInner other member).undotted
      have inner := resolveIn_again plainTop children (levelOf children :: chain) false 0
        (by simpa [inside] using plainChain) searchableInner
      have later := restHypothesis awaited (index + 1) searchableLater
      have twice := settledTag_again own.bare (plain_levelsFor plainTop plainChain false index)
      have sameLevel := levelOf_bareOf (resolveIn top (levelOf children :: chain) false 0 children)
      rw [levelOf_resolveIn] at sameLevel
      unfold settledTag at twice
      unfold bareOf at sameLevel inner
      simp only [resolveUnderRoot, object, if_true, Xml.Content.mapNamed, isNamed_resolved,
        keepsPlace_qualified.named, Xml.Tag.isNamed_remove, twice, sameLevel, inner, later]
    · have inner := resolveIn_again plainTop children []
        (awaited && tag.isNamed objectsLabel) 0 (by simp) searchableInner
      have later := restHypothesis (awaited && !(awaited && tag.isNamed objectsLabel)) index
        searchableLater
      unfold bareOf at inner
      simp only [resolveUnderRoot, object, Bool.false_eq_true, if_false, Xml.Content.mapNamed,
        inner, later]

end Forest

theorem aroundRoot_mapObjects {change : Xml.Tag → Xml.Tag} (keeps : Document.KeepsPlace change)
    (document : Document) : (document.mapObjects change).aroundRoot = document.aroundRoot := by
  unfold Document.aroundRoot Document.mapObjects Document.whole
  by_cases object : document.root.tag.isNamed objectLabel = true
  · simp [Xml.Content.mapNamed, Document.withWhole, object, keeps.named,
      Document.enclosingOf_mapNamed keeps]
  · simp [Xml.Content.mapNamed, Document.withWhole, object]

/-- A document after the search and what comes behind it. -/
def named (document : Document) : Document := fixMissedNames (addRefs document)

theorem named_eq (document : Document) :
    named document = document.withWhole (.element
      (if document.root.tag.isNamed objectLabel then
        settledTag [document.topLevel] document.root.tag else document.root.tag)
      ((resolveUnderRoot document.topLevel (document.aroundRoot.map Enclosing.level) true 0
        document.root.content).mapNamed objectLabel qualified) .nil) := by
  unfold named fixMissedNames Document.mapObjects addRefs Document.aroundRoot
  by_cases object : document.root.tag.isNamed objectLabel = true
  · simp only [object, if_true, Document.whole, Xml.Content.mapNamed, isNamed_resolved]
    rfl
  · simp only [object, Bool.false_eq_true, if_false, Document.whole, Xml.Content.mapNamed,
      Document.withContent]
    rfl

theorem removeRefs_eq (document : Document) :
    removeRefs document = document.withWhole (.element
      (if document.root.tag.isNamed objectLabel then
        document.root.tag.remove "ref" else document.root.tag)
      (document.root.content.mapNamed objectLabel fun tag => tag.remove "ref") .nil) := rfl

/-- A searched document without its references is searched to the same end. -/
theorem named_again {document : Document}
    (searchable : ∀ tag ∈ document.objectTags, Searchable tag) :
    named (removeRefs (named document)) = named document := by
  have sameTop : (removeRefs (named document)).topLevel = document.topLevel := by
    unfold removeRefs strip named fixMissedNames
    rw [Document.topLevel_mapObjects keepsPlace_removeRef,
      Document.topLevel_mapObjects keepsPlace_qualified, topLevel_addRefs]
  have plainTop : PlainLevel document.topLevel := by
    intro declared listed
    obtain ⟨placed, place, _, declares⟩ := Document.mem_topLevel listed
    have own := searchable placed.tag (Document.mem_objectTags.2 ⟨placed, place, rfl⟩)
    exact own.undotted declared.name (name_of_declaredBy? declares)
  have whole : document.objectTags = tagsIn (.element document.root.tag document.root.content .nil) :=
    rfl
  rw [whole, tagsIn_element] at searchable
  have below : ∀ tag ∈ tagsIn document.root.content, Searchable tag := fun tag member =>
    searchable tag (by simp [member])
  have sameLevels : (removeRefs (named document)).aroundRoot.map Enclosing.level =
      document.aroundRoot.map Enclosing.level := by
    unfold removeRefs strip named fixMissedNames
    rw [aroundRoot_mapObjects keepsPlace_removeRef, aroundRoot_mapObjects keepsPlace_qualified,
      aroundRoot_addRefs]
  have plainLevels : ∀ level ∈ document.aroundRoot.map Enclosing.level, PlainLevel level := by
    intro level member
    unfold Document.aroundRoot at member
    split at member
    · rw [List.map_singleton, List.mem_singleton] at member
      rw [member]
      exact plainLevel_of_tags fun tag inside => (below tag inside).undotted
    · exact absurd member (by simp)
  have inner := resolveUnderRoot_again plainTop document.root.content
    (document.aroundRoot.map Enclosing.level) true 0 plainLevels below
  unfold bareOf at inner
  rw [named_eq (removeRefs (named document)), sameTop, sameLevels, removeRefs_eq, named_eq document]
  by_cases object : document.root.tag.isNamed objectLabel = true
  · have own := searchable document.root.tag (by simp [object])
    have plainAll : ∀ level ∈ [document.topLevel], PlainLevel level := by simpa using plainTop
    have twice := settledTag_again own.bare plainAll
    simp only [object, if_true, Document.withWhole, isNamed_settledTag, Xml.Tag.isNamed_remove,
      twice, inner]
  · simp only [object, Bool.false_eq_true, if_false, Document.withWhole, inner]

/-! ## Passes that find nothing to do -/

theorem mapTop_id {change : Xml.Tag → Xml.Tag} (content : Xml.Content)
    (same : ∀ object ∈ childObjects content, change object.1 = object.1) :
    Document.mapTop change content = content := by
  unfold childObjects at same
  induction content with
  | nil => rfl
  | leaf node rest inductionHypothesis =>
    exact congrArg (Xml.Content.leaf node) (inductionHypothesis same)
  | element tag children rest _ restHypothesis =>
    by_cases object : tag.isNamed objectLabel = true
    · simp only [Xml.Content.named, object, if_true, List.forall_mem_cons] at same
      simp only [Document.mapTop, object, if_true, same.1, restHypothesis same.2]
    · simp only [Xml.Content.named, object, Bool.false_eq_true, if_false] at same
      simp only [Document.mapTop, object, Bool.false_eq_true, if_false, restHypothesis same]

theorem modifyFirst_id {label : String} {change : Xml.Content → Xml.Content}
    (content : Xml.Content)
    (same : ∀ found ∈ (content.named label).head?, change found.2 = found.2) :
    content.modifyFirst label change = content := by
  induction content with
  | nil => rfl
  | leaf node rest inductionHypothesis =>
    exact congrArg (Xml.Content.leaf node) (inductionHypothesis same)
  | element tag children rest _ restHypothesis =>
    by_cases here : tag.isNamed label = true
    · simp only [Xml.Content.named, here, if_true, List.head?_cons, Option.mem_def,
        Option.some.injEq, forall_eq'] at same
      simp only [Xml.Content.modifyFirst, here, if_true, same]
    · simp only [Xml.Content.named, here, Bool.false_eq_true, if_false] at same
      simp only [Xml.Content.modifyFirst, here, Bool.false_eq_true, if_false, restHypothesis same]

theorem strip_id {key : String} {document : Document}
    (absent : ∀ tag ∈ document.objectTags, tag.has key = false) : strip key document = document :=
  Document.mapObjects_id fun tag member => Xml.Tag.remove_absent (absent tag member)

theorem globalsToAbstracts_id {document : Document} (normal : NormalForm document) :
    globalsToAbstracts document = document := by
  have sameTop : document.root.content.modifyFirst objectsLabel
      (Document.mapTop declareAbstract) = document.root.content := by
    apply modifyFirst_id
    intro found first
    apply mapTop_id
    intro object member
    have listed : document.objects? = some found := first
    have declares := normal.topDeclares object (by simpa [Document.topObjects, listed] using member)
    unfold declareAbstract
    rw [if_pos (by simpa using declares)]
  unfold globalsToAbstracts
  rw [sameTop]
  exact strip_id fun tag member => (normal.unmarked tag member).2

/-- Where no declaration is nested, the walk leaves everything in place. -/
theorem lift_flat (content : Xml.Content) (chain : List String) (around : List Enclosing)
    (sameEnd : chain.isEmpty = around.isEmpty) (atTop awaited : Bool) (index : Nat)
    (flat : ∀ placed ∈ placementsIn around atTop awaited index content, placed.moves = false) :
    lift chain index content = (content, []) := by
  induction content generalizing chain around atTop awaited index with
  | nil => rfl
  | leaf node rest inductionHypothesis =>
    simp only [lift, inductionHypothesis chain around sameEnd atTop awaited index flat]
  | element tag children rest innerHypothesis restHypothesis =>
    by_cases object : tag.isNamed objectLabel = true
    · simp only [Document.mem_placementsIn_object object] at flat
      have stays : (!chain.isEmpty && tag.has "abstract") = false := by
        rw [sameEnd]
        exact flat _ (Or.inl rfl)
      have inner := innerHypothesis
        (chain ++ [ownName tag (if chain.isEmpty then 0 else index)])
        (Document.enclosingOf tag children :: around) (by simp) false false 0
        fun placed inside => flat placed (Or.inr (Or.inl inside))
      have later := restHypothesis chain around sameEnd atTop awaited (index + 1)
        fun placed behind => flat placed (Or.inr (Or.inr behind))
      simp only [lift, object, stays, if_true, Bool.false_eq_true, if_false, inner, later,
        List.append_nil]
    · simp only [Document.mem_placementsIn_other object] at flat
      have inner := innerHypothesis [] [] rfl _ false 0
        fun placed inside => flat placed (Or.inl inside)
      have later := restHypothesis chain around sameEnd atTop _ index
        fun placed behind => flat placed (Or.inr behind)
      simp only [lift, object, Bool.false_eq_true, if_false, inner, later, List.append_nil]

theorem floatedUp_flat {document : Document}
    (flat : ∀ placed ∈ document.placements, placed.moves = false) :
    floatedUp document = document := by
  have nothing : liftedContent document = (document.root.content, []) :=
    lift_flat _ _ document.aroundRoot (chainOfRoot_isEmpty document) false true 0
      fun placed inside => flat placed (Document.mem_placements.2 (Or.inr inside))
  have unlisted : forestOf (deepestFirst []) = .nil := by simp [deepestFirst, forestOf]
  unfold floatedUp
  rw [nothing, unlisted, modifyFirst_id _ fun found _ => found.2.append_nil]
  rfl

theorem flat_mapObjects {document : Document} {change : Xml.Tag → Xml.Tag}
    (keeps : Document.KeepsPlace change)
    (flat : ∀ placed ∈ document.placements, placed.moves = false) :
    ∀ placed ∈ (document.mapObjects change).placements, placed.moves = false := by
  rw [Document.placements_mapObjects keeps]
  intro placed member
  obtain ⟨before, among, same⟩ := List.mem_map.1 member
  rw [← same]
  unfold Placement.moves Placement.mapTag
  rw [keeps.isAbstract]
  exact flat before among

theorem settled_flat {document : Document} {found : Xml.Tag × Xml.Content}
    (hasList : document.objects? = some found) :
    ∀ placed ∈ (settled document).placements, placed.moves = false := by
  unfold settled fixMissedNames
  apply flat_mapObjects keepsPlace_qualified
  rw [placements_addRefs]
  intro placed member
  obtain ⟨before, among, same⟩ := List.mem_map.1 member
  rw [← same]
  unfold Placement.moves Placement.resolve
  rw [has_abstract_resolved]
  exact lifted_flat hasList before among

/-- The passes before the search drop the references of an optimized document, and nothing else. -/
theorem lifted_settled {document : Document} {found : Xml.Tag × Xml.Content}
    (hasList : document.objects? = some found) :
    lifted (settled document) = removeRefs (settled document) := by
  have normal := normalForm_settled hasList
  have flat : ∀ placed ∈ (removeRefs (settled document)).placements, placed.moves = false :=
    flat_mapObjects keepsPlace_removeRef (settled_flat hasList)
  have unmarked : ∀ tag ∈ (removeRefs (settled document)).objectTags, tag.has "level" = false := by
    unfold removeRefs strip
    rw [Document.objectTags_mapObjects keepsPlace_removeRef]
    intro tag member
    obtain ⟨before, among, same⟩ := List.mem_map.1 member
    rw [← same, Xml.Tag.has_remove_other _ (by decide)]
    exact (normal.unmarked before among).1
  unfold lifted prepared
  rw [globalsToAbstracts_id normal, floatedUp_flat flat]
  exact strip_id unmarked

/-! ## Names without a dot -/

theorem plain_joinAll {mark : Char} {names : List String} (apart : mark ≠ '.')
    (plain : ∀ name ∈ names, Text.holds '.' name = false) :
    Text.holds '.' (Text.joinAll mark names) = false := by
  simp only [Text.holds, List.contains_eq_mem, decide_eq_false_iff_not] at plain ⊢
  unfold Text.joinAll
  rw [String.toList_ofList]
  intro inside
  rcases Text.mem_joined inside with isMark | ⟨part, among, within⟩
  · exact apart isMark.symm
  · obtain ⟨name, member, same⟩ := List.mem_map.1 among
    rw [← same] at within
    exact plain name member within

theorem plain_ownName {tag : Xml.Tag} (undotted : Undotted tag) (index : Nat) :
    Text.holds '.' (ownName tag index) = false := by
  unfold ownName
  cases named : tag.get? "name" with
  | some name => exact undotted name named
  | none =>
    simp only [Option.getD_none, Text.holds, List.contains_eq_mem, decide_eq_false_iff_not,
      String.toList_append, List.mem_append, Nat.toString_eq_ofList_toDigits, String.toList_ofList]
    rintro (mark | digit)
    · exact absurd mark (by decide)
    · exact absurd (Nat.isDigit_of_mem_toDigits (by omega) (by omega) digit) (by decide)

/-- The objects around a spot are those around its forest, or objects of the forest. -/
theorem spotsIn_chain (content : Xml.Content) (around : List (Xml.Tag × Nat)) (index : Nat) :
    ∀ spot ∈ spotsIn around index content, ∀ object ∈ spot.chain,
      object ∈ around ∨ object.1 ∈ tagsIn content := by
  induction content generalizing around index with
  | nil => simp [spotsIn]
  | leaf node rest inductionHypothesis => exact inductionHypothesis around index
  | element tag children rest innerHypothesis restHypothesis =>
    intro spot member object inChain
    rw [tagsIn_element]
    by_cases isObject : tag.isNamed objectLabel = true
    · simp only [spotsIn, isObject, if_true, List.mem_cons, List.mem_append] at member
      have own : tag ∈ (if tag.isNamed objectLabel then [tag] else []) := by simp [isObject]
      rcases member with here | among | behind
      · rw [here] at inChain
        rcases List.mem_append.1 inChain with outer | itself
        · exact Or.inl outer
        · rw [List.mem_singleton.1 itself]
          exact Or.inr (by simp [own])
      · rcases innerHypothesis _ 0 spot among object inChain with outer | inside
        · rcases List.mem_append.1 outer with farther | itself
          · exact Or.inl farther
          · rw [List.mem_singleton.1 itself]
            exact Or.inr (by simp [own])
        · exact Or.inr (by simp [inside])
      · exact (restHypothesis around (index + 1) spot behind object inChain).imp_right
          fun inside => by simp [inside]
    · simp only [spotsIn, isObject, Bool.false_eq_true, if_false, List.mem_append] at member
      rcases member with among | behind
      · rcases innerHypothesis [] 0 spot among object inChain with outer | inside
        · exact absurd outer (by simp)
        · exact Or.inr (by simp [inside])
      · exact (restHypothesis around index spot behind object inChain).imp_right
          fun inside => by simp [inside]

/-- A declaration on its way up has a name without a dot, when all objects had. -/
theorem plain_fullName {document : Document}
    (undotted : ∀ tag ∈ document.objectTags, Undotted tag) {spot : Spot}
    (member : spot ∈ spots document) :
    Text.holds '.' (fullName uncounted spot.chain) = false := by
  have plain : ∀ object ∈ spot.chain, Undotted object.1 := by
    intro object inChain
    rcases spotsIn_chain document.whole [] 0 spot member object inChain with outer | inside
    · exact absurd outer (by simp)
    · exact undotted object.1 inside
  unfold fullName
  apply plain_joinAll (by decide)
  intro name inNames
  generalize spot.chain = chain at plain inNames
  cases chain with
  | nil => exact absurd inNames (by simp [namesOf])
  | cons outer inner =>
    simp only [namesOf, List.mem_cons, List.mem_map] at inNames
    rcases inNames with isOuter | ⟨object, among, same⟩
    · rw [isOuter]
      exact plain_ownName (plain outer List.mem_cons_self) _
    · rw [← same]
      exact plain_ownName (plain object (List.mem_cons_of_mem outer among)) _

theorem undotted_floatedUp {document : Document} {found : Xml.Tag × Xml.Content}
    (hasList : document.objects? = some found)
    (undotted : ∀ tag ∈ document.objectTags, Undotted tag) :
    ∀ tag ∈ (floatedUp document).objectTags, Undotted tag := by
  intro tag member
  obtain ⟨after, place, same⟩ := Document.mem_objectTags.1 member
  rw [← same]
  rcases origin_floatedUp hasList place with
    ⟨before, among, ⟨_, kept⟩ | ⟨_, full, reference⟩⟩ | ⟨position, declaration, standsAt, top⟩
  · rw [kept]
    exact undotted before.tag (Document.mem_objectTags.2 ⟨before, among, rfl⟩)
  · rw [reference]
    intro name named
    rw [get?_referenceTo] at named
    exact undotted before.tag (Document.mem_objectTags.2 ⟨before, among, rfl⟩) name
      (by simpa using named)
  · have floated := mem_deepestFirst.1 (List.mem_of_getElem? standsAt)
    rw [liftedContent_eq] at floated
    obtain ⟨spot, nested, isSpot⟩ := List.mem_map.1 floated
    rw [top, ← isSpot]
    intro name named
    simp only [Spot.floated, Xml.Tag.get?_set_same, Option.some.injEq] at named
    rw [← named]
    exact plain_fullName undotted (List.mem_filter.1 nested).1

/-! ## Names before the search -/

theorem undotted_remove {tag : Xml.Tag} {key : String} (apart : key ≠ "name")
    (undotted : Undotted tag) : Undotted (tag.remove key) := by
  intro name named
  rw [Xml.Tag.get?_remove_other tag apart] at named
  exact undotted name named

theorem undotted_declareAbstract {tag : Xml.Tag} (undotted : Undotted tag) :
    Undotted (declareAbstract tag) := by
  unfold declareAbstract
  split
  · exact undotted
  · intro name named
    rw [Xml.Tag.get?_set_other tag "" (by decide)] at named
    exact undotted name named

theorem undotted_strip {key : String} {document : Document}
    (keeps : Document.KeepsPlace fun tag => tag.remove key) (apart : key ≠ "name")
    (undotted : ∀ tag ∈ document.objectTags, Undotted tag) :
    ∀ tag ∈ (strip key document).objectTags, Undotted tag := by
  unfold strip
  rw [Document.objectTags_mapObjects keeps]
  intro tag member
  obtain ⟨before, among, same⟩ := List.mem_map.1 member
  rw [← same]
  exact undotted_remove apart (undotted before among)

theorem undotted_mapTop (content : Xml.Content) (undotted : ∀ tag ∈ tagsIn content, Undotted tag) :
    ∀ tag ∈ tagsIn (Document.mapTop declareAbstract content), Undotted tag := by
  induction content with
  | nil => exact undotted
  | leaf node rest inductionHypothesis => exact inductionHypothesis undotted
  | element tag children rest _ restHypothesis =>
    simp only [tagsIn_element, List.mem_append] at undotted
    have later := restHypothesis fun other behind => undotted other (Or.inr behind)
    intro other member
    simp only [Document.mapTop, tagsIn_element, List.mem_append] at member
    rcases member with (here | inside) | behind
    · by_cases object : tag.isNamed objectLabel = true
      · simp only [object, if_true, isNamed_declareAbstract, List.mem_singleton] at here
        rw [here]
        exact undotted_declareAbstract (undotted tag (Or.inl (Or.inl (by simp [object]))))
      · simp [object] at here
    · exact undotted other (Or.inl (Or.inr inside))
    · exact later other behind

theorem undotted_modifyFirst {label : String} {change : Xml.Content → Xml.Content}
    (kept : ∀ content, (∀ tag ∈ tagsIn content, Undotted tag) →
      ∀ tag ∈ tagsIn (change content), Undotted tag)
    (content : Xml.Content) (undotted : ∀ tag ∈ tagsIn content, Undotted tag) :
    ∀ tag ∈ tagsIn (content.modifyFirst label change), Undotted tag := by
  induction content with
  | nil => exact undotted
  | leaf node rest inductionHypothesis => exact inductionHypothesis undotted
  | element tag children rest _ restHypothesis =>
    simp only [tagsIn_element, List.mem_append] at undotted
    have inner := kept children fun other inside => undotted other (Or.inl (Or.inr inside))
    have later := restHypothesis fun other behind => undotted other (Or.inr behind)
    intro other member
    unfold Xml.Content.modifyFirst at member
    split at member
    · simp only [tagsIn_element, List.mem_append] at member
      rcases member with (here | inside) | behind
      · exact undotted other (Or.inl (Or.inl here))
      · exact inner other inside
      · exact undotted other (Or.inr behind)
    · simp only [tagsIn_element, List.mem_append] at member
      rcases member with (here | inside) | behind
      · exact undotted other (Or.inl (Or.inl here))
      · exact undotted other (Or.inl (Or.inr inside))
      · exact later other behind

theorem undotted_prepared {document : Document}
    (undotted : ∀ tag ∈ document.objectTags, Undotted tag) :
    ∀ tag ∈ (prepared document).objectTags, Undotted tag := by
  unfold prepared removeRefs globalsToAbstracts
  apply undotted_strip keepsPlace_removeRef (by decide)
  apply undotted_strip (Document.keepsPlace_remove (by decide) (by decide) (by decide)) (by decide)
  have whole : ∀ other : Document, other.objectTags =
      tagsIn (.element other.root.tag other.root.content .nil) := fun _ => rfl
  rw [whole, tagsIn_element] at undotted ⊢
  intro tag member
  simp only [List.mem_append] at undotted member
  rcases member with (root | inside) | behind
  · exact undotted tag (Or.inl (Or.inl root))
  · exact undotted_modifyFirst undotted_mapTop document.root.content
      (fun other among => undotted other (Or.inl (Or.inr among))) tag inside
  · exact undotted tag (Or.inr behind)

/-- What is searched has no references, and no names with a dot when there were none. -/
theorem searchable_lifted {document : Document} {found : Xml.Tag × Xml.Content}
    (hasList : document.objects? = some found)
    (undotted : ∀ tag ∈ document.objectTags, Undotted tag) :
    ∀ tag ∈ (lifted document).objectTags, Searchable tag := by
  intro tag member
  obtain ⟨list, hasListAfter⟩ := prepared_objects? hasList
  constructor
  · have none := (lifted_marks hasList tag member).2.2
    simp [Xml.Tag.has, none]
  · exact undotted_strip keepsPlace_removeLevel (by decide)
      (undotted_floatedUp hasListAfter (undotted_prepared undotted)) tag member

/-! ## The passes, twice -/

theorem settled_again {document : Document} {found : Xml.Tag × Xml.Content}
    (hasList : document.objects? = some found)
    (undotted : ∀ tag ∈ document.objectTags, Undotted tag) :
    settled (settled document) = settled document :=
  calc settled (settled document)
      = named (lifted (settled document)) := rfl
    _ = named (removeRefs (settled document)) := by rw [lifted_settled hasList]
    _ = named (removeRefs (named (lifted document))) := rfl
    _ = named (lifted document) := named_again (searchable_lifted hasList undotted)
    _ = settled document := rfl

theorem objects?_settled {document : Document} {found : Xml.Tag × Xml.Content}
    (hasList : document.objects? = some found) :
    ∃ list, (settled document).objects? = some list := by
  obtain ⟨before, hasListBefore⟩ := prepared_objects? hasList
  have floated : ∃ list, (floatedUp (prepared document)).objects? = some list := by
    unfold Document.objects? at hasListBefore ⊢
    unfold floatedUp Document.withContent liftedContent
    rw [named_modifyFirst, named_objects_lift, List.head?_map, hasListBefore]
    exact ⟨_, rfl⟩
  obtain ⟨after, hasListAfter⟩ := floated
  unfold settled fixMissedNames lifted removeLevels strip
  rw [Document.objects?_mapObjects keepsPlace_qualified, objects?_addRefs,
    Document.objects?_mapObjects keepsPlace_removeLevel, hasListAfter]
  exact ⟨_, rfl⟩

/-- The passes bring a document with a list of top-level objects, none of whose objects has a name
with a dot, into a form that they leave as it is. -/
theorem optimized_again {document : Document} {found : Xml.Tag × Xml.Content}
    (hasList : document.objects? = some found)
    (undotted : ∀ tag ∈ document.objectTags, ∀ name, tag.get? "name" = some name →
      Text.holds '.' name = false) :
    ∃ result, optimized document = .ok result ∧ optimized result = .ok result := by
  obtain ⟨list, hasListAfter⟩ := objects?_settled hasList
  refine ⟨settled document, optimized_ok hasList, ?_⟩
  rw [optimized_ok hasListAfter, settled_again hasList undotted]

/-- A reference to a declaration, one to a name that nothing declares, and a nested declaration. -/
def threeUses : Document :=
  programOf (objectWith [("name", "a"), ("line", "1"), ("level", "2")]
    (objectWith [("base", "x"), ("line", "2")] .nil
      (objectWith [("abstract", ""), ("name", "x"), ("line", "3"), ("ref", "7")]
        (objectWith [("base", "sum"), ("line", "4")] .nil .nil) .nil)) .nil)

theorem threeUses_again :
    ∃ found, threeUses.objects? = some found ∧
      (∀ tag ∈ threeUses.objectTags, ∀ name, tag.get? "name" = some name →
        Text.holds '.' name = false) ∧
      ∃ result, optimized threeUses = .ok result ∧ optimized result = .ok result := by
  have undotted : ∀ tag ∈ threeUses.objectTags, ∀ name ∈ tag.get? "name",
      Text.holds '.' name = false := by decide +kernel
  exact ⟨_, rfl, undotted, optimized_again rfl undotted⟩

-- A name with a dot makes a difference: what moved into the default package is found there.
example :
    let document := programOf (objectWith [("name", "org.eolang.x"), ("line", "1")] .nil
      (objectWith [("base", "x"), ("line", "2")] .nil .nil))
    (optimized document).bind optimized ≠ optimized document := by
  decide +kernel

end Pass

end EoAssembly
