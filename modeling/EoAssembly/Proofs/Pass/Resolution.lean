import EoAssembly.Pass.References
import EoAssembly.Proofs.Document.Placement

/-!
Contract: what the search for declarations sets, and what it leaves alone.

`addRefs` searches the levels of each object where the object stands and sets
nothing but `ref`, so all objects stay in place and declare what they declared.
`fixMissedNames` changes nothing but the `base` of objects without `ref`.

Owns the laws of `lineIn?`, `resolved` and `qualified`, the placements and the
top level of `addRefs`, and the condition under which `brokenRefs` passes.
-/

namespace EoAssembly

open Pass (ScopeLevel Declared declaredBy? levelOf lineIn? resolved qualified)

/-- An object resolved where it stands. -/
def Placement.resolve (top : ScopeLevel) (placed : Placement) : Placement :=
  { placed with tag := resolved (placed.levels top) placed.tag }

namespace Pass

open Document (placementsIn enclosingOf childObjects)

/-! ## The search -/

theorem lineIn?_append (base : String) (level behind : ScopeLevel) :
    lineIn? base (level ++ behind) = (lineIn? base level).or (lineIn? base behind) := by
  induction level with
  | nil => simp [lineIn?]
  | cons entry rest inductionHypothesis =>
    cases entry with
    | none => simpa [lineIn?] using inductionHypothesis
    | some declared =>
      by_cases same : declared.name = base
      · simp [lineIn?, same]
      · simpa [lineIn?, same] using inductionHypothesis

theorem mem_of_lineIn? {base line : String} {level : ScopeLevel}
    (found : lineIn? base level = some line) : some ⟨base, line⟩ ∈ level := by
  induction level with
  | nil => simp [lineIn?] at found
  | cons entry rest inductionHypothesis =>
    cases entry with
    | none => exact List.mem_cons_of_mem _ (inductionHypothesis found)
    | some declared =>
      by_cases same : declared.name = base
      · simp only [lineIn?, same, if_true, Option.some.injEq] at found
        rw [← same, ← found]
        exact List.mem_cons_self
      · simp only [lineIn?, same, if_false] at found
        exact List.mem_cons_of_mem _ (inductionHypothesis found)

/-- The answer of a search is an entry of one of its levels. -/
theorem mem_of_findSome?_lineIn? {base line : String} {levels : List ScopeLevel}
    (found : levels.findSome? (lineIn? base) = some line) :
    ∃ level ∈ levels, some ⟨base, line⟩ ∈ level := by
  obtain ⟨level, member, first⟩ := List.exists_of_findSome?_eq_some found
  exact ⟨level, member, mem_of_lineIn? first⟩

/-! ## One object -/

theorem get?_resolved_other (levels : List ScopeLevel) (tag : Xml.Tag) {key : String}
    (different : key ≠ "ref") : (resolved levels tag).get? key = tag.get? key := by
  unfold resolved
  split
  · rfl
  · split
    · exact Xml.Tag.get?_set_other tag _ different.symm
    · rfl

theorem isNamed_resolved (levels : List ScopeLevel) (tag : Xml.Tag) (label : String) :
    (resolved levels tag).isNamed label = tag.isNamed label := by
  unfold resolved
  split
  · rfl
  · split <;> rfl

theorem declaredBy?_resolved (levels : List ScopeLevel) (tag : Xml.Tag) :
    declaredBy? (resolved levels tag) = declaredBy? tag := by
  simp [declaredBy?, get?_resolved_other]

theorem has_abstract_resolved (levels : List ScopeLevel) (tag : Xml.Tag) :
    (resolved levels tag).has "abstract" = tag.has "abstract" := by
  simp [Xml.Tag.has, get?_resolved_other]

/-- The reference of an object without one is what the search for its base finds. -/
theorem get?_resolved_ref {levels : List ScopeLevel} {tag : Xml.Tag}
    (unresolved : tag.get? "ref" = none) :
    (resolved levels tag).get? "ref" =
      (tag.get? "base").bind fun base => levels.findSome? (lineIn? base) := by
  unfold resolved
  cases based : tag.get? "base" with
  | none => exact unresolved
  | some base =>
    cases search : levels.findSome? (lineIn? base) with
    | none => simpa [search] using unresolved
    | some line => simp [search]

/-! ## All objects -/

theorem levelOf_resolveIn (top : ScopeLevel) (content : Xml.Content) (chain : List ScopeLevel)
    (atTop : Bool) (index : Nat) :
    levelOf (resolveIn top chain atTop index content) = levelOf content := by
  unfold levelOf childObjects
  induction content generalizing index with
  | nil => rfl
  | leaf node rest inductionHypothesis => exact inductionHypothesis index
  | element tag children rest _ restHypothesis =>
    by_cases object : tag.isNamed objectLabel = true
    · simp [resolveIn, Xml.Content.named, object, isNamed_resolved, declaredBy?_resolved,
        restHypothesis]
    · simp [resolveIn, Xml.Content.named, object, restHypothesis]

theorem levelOf_resolveUnderRoot (top : ScopeLevel) (content : Xml.Content)
    (chain : List ScopeLevel) (awaited : Bool) (index : Nat) :
    levelOf (resolveUnderRoot top chain awaited index content) = levelOf content := by
  unfold levelOf childObjects
  induction content generalizing awaited index with
  | nil => rfl
  | leaf node rest inductionHypothesis => exact inductionHypothesis awaited index
  | element tag children rest _ restHypothesis =>
    by_cases object : tag.isNamed objectLabel = true
    · simp [resolveUnderRoot, Xml.Content.named, object, isNamed_resolved, declaredBy?_resolved,
        restHypothesis]
    · simp [resolveUnderRoot, Xml.Content.named, object, restHypothesis]

theorem enclosingOf_resolveIn (top : ScopeLevel) (levels chain : List ScopeLevel)
    (tag : Xml.Tag) (children : Xml.Content) :
    enclosingOf (resolved levels tag) (resolveIn top chain false 0 children) =
      enclosingOf tag children := by
  simp [enclosingOf, has_abstract_resolved, levelOf_resolveIn]

theorem placementsIn_resolveIn (top : ScopeLevel) (content : Xml.Content)
    (around : List Enclosing) (atTop : Bool) (index : Nat) :
    placementsIn around atTop false index
        (resolveIn top (around.map Enclosing.level) atTop index content) =
      (placementsIn around atTop false index content).map (Placement.resolve top) := by
  induction content generalizing around atTop index with
  | nil => rfl
  | leaf node rest inductionHypothesis => exact inductionHypothesis around atTop index
  | element tag children rest innerHypothesis restHypothesis =>
    by_cases object : tag.isNamed objectLabel = true
    · have inner := innerHypothesis (enclosingOf tag children :: around) false 0
      have sameLevel : (enclosingOf tag children).level = levelOf children := rfl
      rw [List.map_cons, sameLevel] at inner
      simp only [resolveIn, placementsIn, object, isNamed_resolved, if_true,
        enclosingOf_resolveIn, List.map_cons, List.map_append, inner, restHypothesis]
      rfl
    · have inner := innerHypothesis [] false 0
      simp only [resolveIn, placementsIn, object, Bool.false_eq_true, if_false,
        Bool.false_and, List.map_append, restHypothesis]
      rw [← inner]
      rfl

theorem placementsIn_resolveUnderRoot (top : ScopeLevel) (content : Xml.Content)
    (around : List Enclosing) (awaited : Bool) (index : Nat) :
    placementsIn around false awaited index
        (resolveUnderRoot top (around.map Enclosing.level) awaited index content) =
      (placementsIn around false awaited index content).map (Placement.resolve top) := by
  induction content generalizing awaited index with
  | nil => rfl
  | leaf node rest inductionHypothesis => exact inductionHypothesis awaited index
  | element tag children rest _ restHypothesis =>
    by_cases object : tag.isNamed objectLabel = true
    · have inner := placementsIn_resolveIn top children (enclosingOf tag children :: around)
        false 0
      have sameLevel : (enclosingOf tag children).level = levelOf children := rfl
      rw [List.map_cons, sameLevel] at inner
      simp only [resolveUnderRoot, placementsIn, object, isNamed_resolved, if_true,
        enclosingOf_resolveIn, List.map_cons, List.map_append, inner, restHypothesis]
      rfl
    · have inner := placementsIn_resolveIn top children []
        (awaited && tag.isNamed objectsLabel) 0
      simp only [resolveUnderRoot, placementsIn, object, Bool.false_eq_true, if_false,
        List.map_append, restHypothesis]
      rw [← inner]
      rfl

section Document

variable (document : Document)

theorem addRefs_root :
    (addRefs document).root.tag.isNamed objectLabel = document.root.tag.isNamed objectLabel ∧
    (addRefs document).root.content = resolveUnderRoot document.topLevel
      (document.aroundRoot.map Enclosing.level) true 0 document.root.content := by
  unfold addRefs Document.aroundRoot
  by_cases object : document.root.tag.isNamed objectLabel = true
  · simp only [object, if_true, isNamed_resolved, true_and]
    rfl
  · simp only [object, Bool.false_eq_true, if_false]
    exact ⟨by simp [Document.withContent, object], rfl⟩

theorem aroundRoot_addRefs : (addRefs document).aroundRoot = document.aroundRoot := by
  obtain ⟨named, content⟩ := addRefs_root document
  unfold Document.aroundRoot enclosingOf
  rw [named, content, levelOf_resolveUnderRoot]
  unfold addRefs
  by_cases object : document.root.tag.isNamed objectLabel = true
  · simp only [object, if_true, has_abstract_resolved]
  · simp only [object, Bool.false_eq_true, if_false]

/-- Every object is resolved where it stands. -/
theorem placements_addRefs :
    (addRefs document).placements =
      document.placements.map (Placement.resolve document.topLevel) := by
  obtain ⟨named, content⟩ := addRefs_root document
  unfold Document.placements
  rw [named, content, aroundRoot_addRefs, placementsIn_resolveUnderRoot]
  by_cases object : document.root.tag.isNamed objectLabel = true
  · have root : (addRefs document).root.tag = resolved [document.topLevel] document.root.tag := by
      unfold addRefs
      simp only [object, if_true]
      rfl
    simp only [object, if_true, List.map_cons, root]
    rfl
  · simp only [object, Bool.false_eq_true, if_false]

theorem named_objects_resolveUnderRoot (top : ScopeLevel) (content : Xml.Content)
    (chain : List ScopeLevel) (index : Nat) :
    ((resolveUnderRoot top chain true index content).named objectsLabel).head? =
      ((content.named objectsLabel).head?).map fun found =>
        (found.1, resolveIn top [] true 0 found.2) := by
  induction content generalizing index with
  | nil => rfl
  | leaf node rest inductionHypothesis => exact inductionHypothesis index
  | element tag children rest _ restHypothesis =>
    by_cases object : tag.isNamed objectLabel = true
    · have noList : tag.isNamed objectsLabel = false :=
        Xml.Tag.isPlain_apart (by decide) object
      simp [resolveUnderRoot, Xml.Content.named, object, isNamed_resolved, noList,
        restHypothesis]
    · by_cases isList : tag.isNamed objectsLabel = true
      · simp [resolveUnderRoot, Xml.Content.named, object, isList]
      · simp [resolveUnderRoot, Xml.Content.named, object, isList, restHypothesis]

theorem objects?_addRefs :
    (addRefs document).objects? = document.objects?.map fun found =>
      (found.1, resolveIn document.topLevel [] true 0 found.2) := by
  unfold Document.objects?
  rw [(addRefs_root document).2, named_objects_resolveUnderRoot]

theorem topLevel_addRefs : (addRefs document).topLevel = document.topLevel := by
  have top : ∀ whole : Document,
      whole.topLevel = (whole.objects?.map fun found => levelOf found.2).getD [] := by
    intro whole
    unfold Document.topLevel Document.topObjects
    cases whole.objects? <;> rfl
  rw [top, objects?_addRefs, top]
  cases document.objects? with
  | none => rfl
  | some found => exact levelOf_resolveIn _ _ _ _ _

theorem topTags_resolveIn (top : ScopeLevel) (content : Xml.Content)
    (chain : List ScopeLevel) (atTop : Bool) (index : Nat) :
    ∀ object ∈ childObjects (resolveIn top chain atTop index content),
      ∃ before ∈ childObjects content, ∃ levels, object.1 = resolved levels before.1 := by
  unfold childObjects
  induction content generalizing index with
  | nil => simp [resolveIn, Xml.Content.named]
  | leaf node rest inductionHypothesis => exact inductionHypothesis index
  | element tag children rest _ restHypothesis =>
    intro object member
    by_cases isObject : tag.isNamed objectLabel = true
    · simp only [resolveIn, isObject, if_true, Xml.Content.named, isNamed_resolved,
        List.mem_cons] at member
      simp only [Xml.Content.named, isObject, if_true, List.mem_cons]
      rcases member with here | behind
      · exact ⟨_, Or.inl rfl, _, by rw [here]⟩
      · obtain ⟨before, among, resolution⟩ := restHypothesis (index + 1) object behind
        exact ⟨before, Or.inr among, resolution⟩
    · simp only [resolveIn, isObject, Bool.false_eq_true, if_false, Xml.Content.named] at member
      simp only [Xml.Content.named, isObject, Bool.false_eq_true, if_false]
      exact restHypothesis index object member

/-- The top-level objects stay the same but for their references. -/
theorem topObjects_addRefs :
    ∀ object ∈ (addRefs document).topObjects, ∃ before ∈ document.topObjects,
      ∃ levels, object.1 = resolved levels before.1 := by
  unfold Document.topObjects
  rw [objects?_addRefs]
  cases document.objects? with
  | none => simp
  | some found => exact topTags_resolveIn _ _ _ _ _

end Document

/-! ## Names moved into the default package -/

theorem get?_qualified_other (tag : Xml.Tag) {key : String} (different : key ≠ "base") :
    (qualified tag).get? key = tag.get? key := by
  unfold qualified
  split
  · rfl
  · split
    · rfl
    · exact Xml.Tag.get?_set_other tag _ different.symm

theorem keepsPlace_qualified : Document.KeepsPlace qualified where
  named tag label := by
    unfold qualified
    split
    · rfl
    · split <;> rfl
  declared tag := by simp [declaredBy?, get?_qualified_other]
  isAbstract tag := by simp [Xml.Tag.has, get?_qualified_other]

theorem has_base_qualified (tag : Xml.Tag) :
    (qualified tag).has "base" = tag.has "base" := by
  unfold qualified
  split
  · rfl
  · next base based =>
    split
    · rfl
    · simp [Xml.Tag.has, based]

theorem qualified_of_ref {tag : Xml.Tag} (resolved : tag.has "ref" = true) :
    qualified tag = tag := by
  unfold qualified
  split
  · rfl
  · simp [resolved]

/-- A base that nothing resolves is empty, reflexive or has a dot in the end. -/
theorem holds_dot_qualified {tag : Xml.Tag} {base : String}
    (unresolved : (qualified tag).get? "ref" = none)
    (based : (qualified tag).get? "base" = some base) (nonempty : base ≠ "")
    (leads : Document.isReflexive base = false) : Text.holds '.' base = true := by
  have noRef : tag.has "ref" = false := by
    rw [get?_qualified_other tag (by decide)] at unresolved
    simp [Xml.Tag.has, unresolved]
  unfold qualified at based
  cases own : tag.get? "base" with
  | none => simp [own] at based
  | some name =>
    simp only [own, noRef, Bool.false_or] at based
    split at based
    · next untouched =>
      have same : name = base := by simpa [own] using based
      subst same
      simpa [nonempty, leads] using untouched
    · have moved : s!"{defaultPackage}.{name}" = base := by simpa using based
      rw [← moved]
      simp only [Text.holds, String.toList_append, List.contains_eq_mem, List.mem_append,
        decide_eq_true_eq]
      exact Or.inl (Or.inr (by decide))

/-! ## References to no object -/

/-- No reference is broken when all of them are lines of objects. -/
theorem brokenRefs_ok {document : Document}
    (lines : ∀ tag ∈ document.objectTags, ∀ line, tag.get? "ref" = some line →
      ∃ other ∈ document.objectTags, other.get? "line" = some line) :
    brokenRefs document = .ok document := by
  have none : danglingRefs document = [] := by
    unfold danglingRefs
    rw [List.filter_eq_nil_iff]
    intro line referenced
    obtain ⟨tag, member, reference⟩ := List.mem_filterMap.1 referenced
    obtain ⟨other, among, same⟩ := lines tag member line reference
    have listed : line ∈ (document.allObjects.map Prod.fst).filterMap fun tag =>
        tag.get? "line" := List.mem_filterMap.2 ⟨other, among, same⟩
    intro missing
    rw [List.contains_iff_mem.2 listed] at missing
    exact absurd missing (by decide)
  unfold brokenRefs
  rw [none]

end Pass

end EoAssembly
