import EoAssembly.Proofs.Pass.NormalForm
import Mathlib.Data.List.Nodup

/-!
Contract: when a reference still leads to the declaration it meant.

The search for declarations runs after the nested ones moved up, so an object
inside a moved declaration no longer sees what was declared farther out.  Its
reference is the one that the search meant before the moves exactly when the
objects that stay around it give the same answer as all objects around it.

Owns `Placement.resolution`, the answer of the search for an object where it
stands, `Placement.KeepsDeclaration`, and what the passes make of both.

Does not own: the moves, or the search in a list of levels.
-/

namespace EoAssembly

open Pass (ScopeLevel Declared declaredBy? lineIn? resolved qualified prepared lifted settled)

namespace Placement

/-- The levels that the objects around an object declare, innermost first and without
the object itself. -/
def nearLevels (placed : Placement) : List ScopeLevel :=
  match placed.around.map Enclosing.level with
  | [] => []
  | level :: outer => Pass.withoutObject level placed.index :: outer

/-- The line of the declaration that an object refers to where it stands. -/
def resolution (top : ScopeLevel) (placed : Placement) : Option String :=
  (placed.tag.get? "base").bind fun base => (placed.levels top).findSome? (lineIn? base)

/-- The line of the declaration of an object among the objects around it. -/
def nearResolution (placed : Placement) : Option String :=
  (placed.tag.get? "base").bind fun base => placed.nearLevels.findSome? (lineIn? base)

/-- The objects that stay around an object answer its search as all those around it do. -/
def KeepsDeclaration (placed : Placement) : Prop :=
  placed.kept.nearResolution = placed.nearResolution

instance (placed : Placement) : Decidable placed.KeepsDeclaration :=
  inferInstanceAs (Decidable (_ = _))

/-- The top level as an object searches it. -/
def topLevelFor (top : ScopeLevel) (placed : Placement) : ScopeLevel :=
  if placed.atTop then Pass.withoutObject top placed.index else top

theorem levels_eq (top : ScopeLevel) (placed : Placement) :
    placed.levels top = placed.nearLevels ++ [placed.topLevelFor top] := rfl

/-- The search goes through the levels around an object and then through the top level. -/
theorem resolution_of_base {placed : Placement} {base : String} (top : ScopeLevel)
    (based : placed.tag.get? "base" = some base) :
    placed.resolution top =
      placed.nearResolution.or (lineIn? base (placed.topLevelFor top)) := by
  unfold resolution nearResolution
  rw [levels_eq, based]
  simp [List.findSome?_append, List.findSome?_cons]
  cases lineIn? base (placed.topLevelFor top) <;> rfl

end Placement

/-- Every object has a line, and no two objects have the same. -/
structure Numbered (document : Document) : Prop where
  lined : ∀ tag ∈ document.objectTags, tag.has "line" = true
  apart : (document.objectTags.map fun tag => tag.get? "line").Nodup

namespace Pass

open Document (placementsIn)

/-! ## Lines -/

/-- In a numbered document an object is known by its line. -/
theorem placed_unique {document : Document} (numbered : Numbered document)
    {first second : Placement} (firstPlace : first ∈ document.placements)
    (secondPlace : second ∈ document.placements)
    (sameLine : first.tag.get? "line" = second.tag.get? "line") : first = second := by
  have apart : (document.placements.map fun placed => placed.tag.get? "line").Nodup := by
    have lines := numbered.apart
    rw [← Document.placements_tags, List.map_map] at lines
    exact lines
  exact List.inj_on_of_nodup_map apart firstPlace secondPlace sameLine

theorem lines_mapTop {change : Xml.Tag → Xml.Tag}
    (sameLine : ∀ tag, (change tag).get? "line" = tag.get? "line")
    (named : ∀ tag, (change tag).isNamed objectLabel = tag.isNamed objectLabel)
    (content : Xml.Content) :
    (Document.tagsIn (Document.mapTop change content)).map (fun tag => tag.get? "line") =
      (Document.tagsIn content).map fun tag => tag.get? "line" := by
  unfold Document.tagsIn
  induction content with
  | nil => rfl
  | leaf node rest inductionHypothesis => exact inductionHypothesis
  | element tag children rest _ restHypothesis =>
    simp only [List.map_map] at restHypothesis ⊢
    by_cases object : tag.isNamed objectLabel = true
    · simp [Document.mapTop, Xml.Content.allNamed, object, named, sameLine, restHypothesis]
    · simp [Document.mapTop, Xml.Content.allNamed, object, restHypothesis]

theorem lines_modifyFirst {change : Xml.Content → Xml.Content} (label : String)
    (sameLines : ∀ content, (Document.tagsIn (change content)).map (fun tag => tag.get? "line") =
      (Document.tagsIn content).map fun tag => tag.get? "line")
    (content : Xml.Content) :
    (Document.tagsIn (content.modifyFirst label change)).map (fun tag => tag.get? "line") =
      (Document.tagsIn content).map fun tag => tag.get? "line" := by
  unfold Document.tagsIn at *
  induction content with
  | nil => rfl
  | leaf node rest inductionHypothesis => exact inductionHypothesis
  | element tag children rest _ restHypothesis =>
    simp only [List.map_map] at *
    by_cases here : tag.isNamed label = true
    · simp only [Xml.Content.modifyFirst, here, if_true, Xml.Content.allNamed, List.map_append,
        sameLines]
      split <;> rfl
    · simp [Xml.Content.modifyFirst, Xml.Content.allNamed, here, restHypothesis]

theorem get?_line_declareAbstract (tag : Xml.Tag) :
    (declareAbstract tag).get? "line" = tag.get? "line" := by
  unfold declareAbstract
  split
  · rfl
  · exact Xml.Tag.get?_set_other tag "" (by decide)

/-- The passes before the moves leave the lines of all objects alone. -/
theorem lines_prepared (document : Document) :
    (prepared document).objectTags.map (fun tag => tag.get? "line") =
      document.objectTags.map fun tag => tag.get? "line" := by
  have stripped : ∀ key, key ≠ "name" → key ≠ "line" → key ≠ "abstract" → ∀ other : Document,
      (strip key other).objectTags.map (fun tag => tag.get? "line") =
        other.objectTags.map fun tag => tag.get? "line" := by
    intro key notName notLine notAbstract other
    unfold strip
    rw [Document.objectTags_mapObjects
      (Document.keepsPlace_remove notName notLine notAbstract), List.map_map]
    apply List.map_congr_left
    intro tag _
    exact Xml.Tag.get?_remove_other tag notLine
  unfold prepared removeRefs globalsToAbstracts
  rw [stripped "ref" (by decide) (by decide) (by decide),
    stripped "global" (by decide) (by decide) (by decide)]
  have content := lines_modifyFirst objectsLabel
    (lines_mapTop get?_line_declareAbstract isNamed_declareAbstract) document.root.content
  unfold Document.tagsIn at content
  simp only [Document.objectTags, Document.allObjects, Document.whole, Document.withContent,
    Xml.Content.allNamed, List.append_nil, List.map_append, content]
  split <;> rfl

theorem numbered_prepared {document : Document} (numbered : Numbered document) :
    Numbered (prepared document) where
  lined tag member := by
    have line : tag.get? "line" ∈ document.objectTags.map fun other => other.get? "line" := by
      rw [← lines_prepared]
      exact List.mem_map.2 ⟨tag, member, rfl⟩
    obtain ⟨other, among, same⟩ := List.mem_map.1 line
    have lined := numbered.lined other among
    unfold Xml.Tag.has at *
    rw [← same]
    exact lined
  apart := by
    rw [lines_prepared]
    exact numbered.apart

/-! ## Full names -/

theorem length_joined (separator : Char) (outer : List (List Char)) (last : List Char) :
    last.length + outer.length ≤ (Text.joined separator (outer ++ [last])).length := by
  induction outer with
  | nil => simp [Text.joined]
  | cons part rest inductionHypothesis =>
    have nonempty : rest ++ [last] ≠ [] := by simp
    obtain ⟨next, others, parts⟩ := List.exists_cons_of_ne_nil nonempty
    rw [parts] at inductionHypothesis
    rw [List.cons_append, parts]
    simp only [Text.joined, List.length_append, List.length_cons] at *
    omega

/-- A full name is not the last name of its chain. -/
theorem joinAll_ne_last {outer : List String} (nested : outer ≠ []) (last : String) :
    Text.joinAll scopeMark (outer ++ [last]) ≠ last := by
  intro same
  have longer := length_joined scopeMark (outer.map String.toList) last.toList
  have chars := congrArg (fun text => text.toList.length) same
  simp only [Text.joinAll, List.map_append, List.map_cons, List.map_nil,
    String.toList_ofList] at chars
  rw [chars, List.length_map] at longer
  have some := List.length_pos_iff.2 nested
  omega

/-! ## The search before and after the moves -/

theorem keptAround_cons (innermost : Enclosing) (outer : List Enclosing) :
    keptAround (innermost :: outer) = [innermost] ∨
      keptAround (innermost :: outer) = innermost :: keptAround outer := by
  simp only [keptAround]
  split
  · exact Or.inl rfl
  · exact Or.inr rfl

/-- The objects that stay around an object answer like the first ones around it. -/
theorem findSome?_keptAround (search : ScopeLevel → Option String) {line : String}
    (around : List Enclosing)
    (found : ((keptAround around).map Enclosing.level).findSome? search = some line) :
    (around.map Enclosing.level).findSome? search = some line := by
  induction around with
  | nil => exact found
  | cons innermost outer inductionHypothesis =>
    rw [List.map_cons, List.findSome?_cons]
    rcases keptAround_cons innermost outer with cut | uncut
    · rw [cut, List.map_cons, List.findSome?_cons] at found
      cases here : search innermost.level with
      | none => simp [here] at found
      | some other => simpa [here] using found
    · rw [uncut, List.map_cons, List.findSome?_cons] at found
      cases here : search innermost.level with
      | none =>
        rw [here] at found
        exact inductionHypothesis found
      | some other => simpa [here] using found

theorem nearResolution_kept {placed : Placement} {line : String}
    (found : placed.kept.nearResolution = some line) : placed.nearResolution = some line := by
  obtain ⟨tag, around, index, atTop⟩ := placed
  unfold Placement.nearResolution Placement.nearLevels Placement.kept at *
  simp only at found ⊢
  cases based : tag.get? "base" with
  | none => simp [based] at found
  | some base =>
    rw [based, Option.bind_some] at found
    rw [Option.bind_some]
    cases around with
    | nil => exact found
    | cons innermost outer =>
      -- both searches start with the innermost level without the object itself
      rw [List.map_cons, List.findSome?_cons]
      rcases keptAround_cons innermost outer with cut | uncut
      · rw [cut, List.map_cons, List.findSome?_cons] at found
        cases here : lineIn? base (withoutObject innermost.level index) with
        | none => simp [here] at found
        | some other => simpa [here] using found
      · rw [uncut, List.map_cons, List.findSome?_cons] at found
        cases here : lineIn? base (withoutObject innermost.level index) with
        | none =>
          rw [here] at found
          exact findSome?_keptAround (lineIn? base) outer found
        | some other => simpa [here] using found

theorem mem_nearLevels {placed : Placement} {level : ScopeLevel} {entry : Option Declared}
    (listed : level ∈ placed.nearLevels) (inside : entry ∈ level) :
    ∃ enclosing ∈ placed.around, entry ∈ enclosing.level := by
  unfold Placement.nearLevels at listed
  cases around : placed.around with
  | nil => simp [around] at listed
  | cons innermost outer =>
    rw [around] at listed
    simp only [List.map_cons, List.mem_cons] at listed
    rcases listed with own | farther
    · rw [own] at inside
      exact ⟨innermost, List.mem_cons_self, List.mem_of_mem_eraseIdx inside⟩
    · obtain ⟨enclosing, among, same⟩ := List.mem_map.1 farther
      rw [← same] at inside
      exact ⟨enclosing, List.mem_cons_of_mem innermost among, inside⟩

/-- What is found around an object is the line of an object inside of another one. -/
theorem declared_near {document : Document} {placed : Placement}
    (member : placed ∈ document.placements) {base line : String}
    (based : placed.tag.get? "base" = some base)
    (found : placed.nearResolution = some line) :
    ∃ declaring ∈ document.placements, declaring.around ≠ [] ∧
      declaredBy? declaring.tag = some ⟨base, line⟩ := by
  unfold Placement.nearResolution at found
  rw [based, Option.bind_some] at found
  obtain ⟨level, listed, entry⟩ := mem_of_findSome?_lineIn? found
  obtain ⟨enclosing, among, inside⟩ := mem_nearLevels listed entry
  exact Document.mem_enclosing member among inside

theorem declaredBy?_eq_some {tag : Xml.Tag} {name line : String} :
    declaredBy? tag = some ⟨name, line⟩ ↔
      tag.get? "name" = some name ∧ tag.get? "line" = some line := by
  unfold declaredBy?
  split
  · next own at_ named lined =>
    rw [named, lined]
    simp
  · next missing =>
    constructor
    · intro declared
      exact absurd declared (by simp)
    · rintro ⟨named, lined⟩
      exact absurd lined (missing name line named)

theorem topLevelFor_append {document : Document} {placed : Placement}
    (member : placed ∈ document.placements) (behind : ScopeLevel) :
    placed.topLevelFor (document.topLevel ++ behind) =
      placed.topLevelFor document.topLevel ++ behind := by
  unfold Placement.topLevelFor
  split
  · next isTop =>
    have own := (Document.placements_atTop member isTop).2
    have bound := (List.getElem?_eq_some_iff.1 own).1
    exact List.eraseIdx_append_of_lt_length bound behind
  · rfl

section Search

variable {document : Document} {found : Xml.Tag × Xml.Content} {placed : Placement}
  {line : String}

/-- What is declared around an object is found among no top-level object after the
moves: not among the old ones, and not among the moved ones under their full names. -/
theorem not_declared_top (hasList : document.objects? = some found)
    (numbered : Numbered document) {declaring : Placement} {base : String}
    (member : declaring ∈ document.placements) (inside : declaring.around ≠ [])
    (declares : declaredBy? declaring.tag = some ⟨base, line⟩) :
    some ⟨base, line⟩ ∉ (floatedUp document).topLevel := by
  intro listed
  obtain ⟨named, lined⟩ := declaredBy?_eq_some.1 declares
  rw [topLevel_floatedUp hasList, List.mem_append] at listed
  rcases listed with old | moved
  · obtain ⟨other, place, alone, same⟩ := Document.mem_topLevel old
    have sameLine := (declaredBy?_eq_some.1 same).2
    have equal := placed_unique numbered member place (lined.trans sameLine.symm)
    rw [equal] at inside
    exact inside alone
  · obtain ⟨declaration, among, same⟩ := List.mem_map.1 moved
    obtain ⟨origin, place, _, outer, nested, renamed⟩ :=
      floated_origin document declaration among
    obtain ⟨fullName, sameLine⟩ := declaredBy?_eq_some.1 same
    rw [renamed, Xml.Tag.get?_set_other _ _ (by decide)] at sameLine
    rw [renamed, Xml.Tag.get?_set_same] at fullName
    have equal := placed_unique numbered member place (lined.trans sameLine.symm)
    have own : ownName origin.tag origin.index = base := by
      unfold ownName
      rw [← equal, named]
      rfl
    rw [own] at fullName
    exact joinAll_ne_last nested base (Option.some.inj fullName)

/-- After the moves the search for an object that stays gives the answer from before
exactly when the objects around it do. -/
theorem resolution_kept_iff (hasList : document.objects? = some found)
    (numbered : Numbered document) (member : placed ∈ document.placements)
    (resolves : placed.resolution document.topLevel = some line) :
    placed.kept.resolution (floatedUp document).topLevel = some line ↔
      placed.KeepsDeclaration := by
  obtain ⟨base, based⟩ : ∃ base, placed.tag.get? "base" = some base := by
    unfold Placement.resolution at resolves
    cases based : placed.tag.get? "base" with
    | none => simp [based] at resolves
    | some base => exact ⟨base, rfl⟩
  have basedKept : placed.kept.tag.get? "base" = some base := based
  have top : placed.kept.topLevelFor (floatedUp document).topLevel =
      placed.topLevelFor document.topLevel ++
        (deepestFirst (liftedContent document).2).map fun declaration =>
          declaredBy? declaration.tag := by
    rw [topLevel_floatedUp hasList]
    exact topLevelFor_append member _
  rw [Placement.resolution_of_base _ based] at resolves
  rw [Placement.resolution_of_base _ basedKept]
  unfold Placement.KeepsDeclaration
  constructor
  · intro kept
    cases near : placed.kept.nearResolution with
    | some other => rw [nearResolution_kept near]
    | none =>
      cases before : placed.nearResolution with
      | none => rfl
      | some other =>
        -- the declaration is out of sight now, so a top-level one would have its line
        rw [before, Option.some_or] at resolves
        rw [near, Option.none_or] at kept
        obtain ⟨declaring, place, inside, declares⟩ := declared_near member based before
        rw [Option.some.inj resolves] at declares
        have missing := not_declared_top hasList numbered place inside declares
        have listed := mem_of_lineIn? kept
        unfold Placement.topLevelFor at listed
        split at listed
        · exact absurd (List.mem_of_mem_eraseIdx listed) missing
        · exact absurd listed missing
  · intro keeps
    rw [keeps, top, lineIn?_append]
    cases before : placed.nearResolution with
    | some other =>
      rw [before, Option.some_or] at resolves
      rw [Option.some_or]
      exact resolves
    | none =>
      rw [before, Option.none_or] at resolves
      rw [Option.none_or, resolves, Option.some_or]

end Search

/-! ## The passes -/

section Passes

variable {document result : Document} {placed : Placement} {line : String}

theorem objects?_of_optimized (ran : optimized document = .ok result) :
    ∃ found, document.objects? = some found ∧ result = settled document := by
  cases hasList : document.objects? with
  | none =>
    rw [optimized_error hasList] at ran
    exact absurd ran (by simp)
  | some found =>
    rw [optimized_ok hasList] at ran
    exact ⟨found, rfl, (Except.ok.inj ran).symm⟩

/-- An object that stays, without its level marker, where it stands after the moves. -/
def unmarked (placed : Placement) : Placement := placed.mapTag fun tag => tag.remove "level"

theorem resolution_unmarked (placed : Placement) (top : ScopeLevel) :
    (unmarked placed).resolution top = placed.resolution top := by
  have sameBase : (unmarked placed).tag.get? "base" = placed.tag.get? "base" :=
    Xml.Tag.get?_remove_other placed.tag (by decide)
  unfold Placement.resolution
  rw [sameBase]
  rfl

/-- In a numbered document the result holds an object that stays once, resolved where
it stands after the moves. -/
theorem settled_of_stays {found : Xml.Tag × Xml.Content} (numbered : Numbered document)
    (hasList : document.objects? = some found) (member : placed ∈ (prepared document).placements)
    (stays : placed.moves = false) (after : Xml.Tag)
    (listed : after ∈ (settled document).objectTags)
    (sameLine : after.get? "line" = placed.tag.get? "line") :
    after = (((unmarked placed.kept).resolve (lifted document).topLevel).mapTag qualified).tag := by
  obtain ⟨list, hasListAfter⟩ := prepared_objects? hasList
  obtain ⟨before, among, same⟩ := mem_objectTags_settled listed
  rw [placements_lifted] at among
  obtain ⟨moved, place, unlevelled⟩ := List.mem_map.1 among
  have lineOfMoved : moved.tag.get? "line" = placed.tag.get? "line" := by
    rw [← sameLine, same, get?_qualified_other _ (by decide),
      get?_resolved_other _ _ (by decide), ← unlevelled]
    exact (Xml.Tag.get?_remove_other moved.tag (by decide)).symm
  -- the line tells which object of the document before the moves this was
  have isKept : moved = placed.kept := by
    rcases origin_floatedUp hasListAfter place with
      ⟨origin, originPlace, ⟨_, kept⟩ | ⟨moves, full, reference⟩⟩ |
      ⟨position, declaration, standsAt, top⟩
    · rw [kept] at lineOfMoved ⊢
      rw [placed_unique (numbered_prepared numbered) originPlace member lineOfMoved]
    · rw [reference] at lineOfMoved
      simp only [get?_referenceTo, or_true, true_or, if_true] at lineOfMoved
      rw [placed_unique (numbered_prepared numbered) originPlace member lineOfMoved,
        stays] at moves
      exact absurd moves (by decide)
    · obtain ⟨origin, originPlace, moves, outer, _, renamed⟩ := floated_origin (prepared document)
        declaration (List.mem_of_getElem? standsAt)
      rw [top, renamed] at lineOfMoved
      simp only [Xml.Tag.get?_set_other _ _ (by decide : "name" ≠ "line")] at lineOfMoved
      rw [placed_unique (numbered_prepared numbered) originPlace member lineOfMoved,
        stays] at moves
      exact absurd moves (by decide)
  rw [same, ← unlevelled, isKept]
  rfl

theorem line_settled (placed : Placement) (top : ScopeLevel) :
    (((unmarked placed).resolve top).mapTag qualified).tag.get? "line" =
      placed.tag.get? "line" := by
  simp only [Placement.mapTag, Placement.resolve, unmarked]
  rw [get?_qualified_other _ (by decide), get?_resolved_other _ _ (by decide),
    Xml.Tag.get?_remove_other _ (by decide)]

/-- The reference of an object of the result is the answer of the search where it stands. -/
theorem ref_settled {placed : Placement} (top : ScopeLevel)
    (unresolved : placed.tag.get? "ref" = none) :
    ((placed.resolve top).mapTag qualified).tag.get? "ref" = placed.resolution top := by
  simp only [Placement.mapTag, Placement.resolve]
  rw [get?_qualified_other _ (by decide), get?_resolved_ref unresolved]
  rfl

end Passes

end Pass

/-- In a numbered document, an object that does not move and refers to the declaration
at a line before the moves carries this line as its reference in the result exactly
when the objects that stay around it answer its search as all those around it do.
It then keeps its base and asks for no foreign name. -/
theorem references_kept_iff {document result : Document} (numbered : Numbered document)
    (ran : Pass.optimized document = .ok result) {placed : Placement}
    (member : placed ∈ (prepared document).placements) (stays : placed.moves = false)
    {line : String} (resolves : placed.resolution (prepared document).topLevel = some line) :
    (∃ after ∈ result.objectTags, after.get? "line" = placed.tag.get? "line") ∧
    ∀ after ∈ result.objectTags, after.get? "line" = placed.tag.get? "line" →
      (after.get? "ref" = some line ↔ placed.KeepsDeclaration) ∧
      (placed.KeepsDeclaration → after.get? "base" = placed.tag.get? "base" ∧
        Document.foreignName? after = none) := by
  obtain ⟨found, hasList, same⟩ := Pass.objects?_of_optimized ran
  obtain ⟨list, hasListAfter⟩ := Pass.prepared_objects? hasList
  subst same
  have stands : Pass.unmarked placed.kept ∈ (lifted document).placements := by
    rw [Pass.placements_lifted]
    exact List.mem_map.2 ⟨placed.kept, Pass.kept_mem_floatedUp hasListAfter member stays, rfl⟩
  have unresolved : (Pass.unmarked placed.kept).tag.get? "ref" = none :=
    (Pass.lifted_marks hasList _ (Document.mem_objectTags.2 ⟨_, stands, rfl⟩)).2.2
  constructor
  · refine ⟨_, Document.mem_objectTags.2 ⟨_, ?_, rfl⟩,
      Pass.line_settled placed.kept (lifted document).topLevel⟩
    rw [Pass.placements_settled]
    exact List.mem_map.2 ⟨_, stands, rfl⟩
  · intro after listed sameLine
    have result := Pass.settled_of_stays numbered hasList member stays after listed sameLine
    have reference : after.get? "ref" =
        placed.kept.resolution (Pass.floatedUp (prepared document)).topLevel := by
      rw [result, Pass.ref_settled _ unresolved, Pass.resolution_unmarked, Pass.topLevel_lifted]
    have exactly : after.get? "ref" = some line ↔ placed.KeepsDeclaration := by
      rw [reference]
      exact Pass.resolution_kept_iff hasListAfter (Pass.numbered_prepared numbered) member
        resolves
    refine ⟨exactly, fun keeps => ?_⟩
    have refers := exactly.2 keeps
    have hasRef : after.has "ref" = true := by simp [Xml.Tag.has, refers]
    constructor
    · rw [result] at hasRef ⊢
      simp only [Placement.mapTag, Placement.resolve] at hasRef ⊢
      have resolvedRef : (resolved ((Pass.unmarked placed.kept).levels
          (lifted document).topLevel) (Pass.unmarked placed.kept).tag).has "ref" = true := by
        unfold Xml.Tag.has at hasRef ⊢
        rw [Pass.get?_qualified_other _ (by decide)] at hasRef
        exact hasRef
      rw [Pass.qualified_of_ref resolvedRef, Pass.get?_resolved_other _ _ (by decide)]
      exact Xml.Tag.get?_remove_other placed.tag (by decide)
    · simp [Document.foreignName?, Document.foreignTests, Document.notResolved, hasRef]

/-- An object with attributes, in front of others. -/
def objectWith (attributes : List (String × String)) (children rest : Xml.Content) :
    Xml.Content :=
  .element (attributes.foldl (fun tag pair => tag.set pair.1 pair.2) (.plain objectLabel))
    children rest

/-- A document with these top-level objects. -/
def programOf (objects : Xml.Content) : Document :=
  ⟨"app.xmir", { before := [], tag := .plain "program",
                 content := .single (.plain objectsLabel) objects, after := [] }⟩

/-- The name `x` is declared in `a` and used next to its declaration. -/
def usedInSight : Document :=
  programOf (objectWith [("abstract", ""), ("name", "a"), ("line", "1")]
    (objectWith [("base", "x"), ("line", "2")] .nil
      (objectWith [("base", "y"), ("name", "x"), ("line", "3")] .nil .nil)) .nil)

theorem reference_in_sight_kept :
    Numbered usedInSight ∧ Pass.optimized usedInSight = .ok (settled usedInSight) ∧
    ∃ placed ∈ (prepared usedInSight).placements, placed.moves = false ∧
      placed.resolution (prepared usedInSight).topLevel = some "3" ∧ placed.KeepsDeclaration ∧
      ∃ after ∈ (settled usedInSight).objectTags,
        after.get? "line" = some "2" ∧ after.get? "ref" = some "3" := by
  have numbered : Numbered usedInSight := ⟨by decide +kernel, by decide +kernel⟩
  have ran : Pass.optimized usedInSight = .ok (settled usedInSight) := by decide +kernel
  have use : ∃ placed ∈ (prepared usedInSight).placements, placed.moves = false ∧
      placed.tag.get? "line" = some "2" ∧
      placed.resolution (prepared usedInSight).topLevel = some "3" ∧
      placed.KeepsDeclaration := by decide +kernel
  obtain ⟨placed, member, stays, lined, resolves, keeps⟩ := use
  obtain ⟨⟨after, listed, sameLine⟩, exactly⟩ :=
    references_kept_iff numbered ran member stays resolves
  have refers := (exactly after listed sameLine).1.2 keeps
  exact ⟨numbered, ran, placed, member, stays, resolves, keeps, after, listed,
    sameLine.trans lined, refers⟩

/-- The name `x` is declared in `a` and used in the abstract object `b` inside of it. -/
def usedOutOfSight : Document :=
  programOf (objectWith [("abstract", ""), ("name", "a"), ("line", "1")]
    (objectWith [("abstract", ""), ("name", "b"), ("line", "2")]
      (objectWith [("base", "x"), ("line", "4")] .nil .nil)
      (objectWith [("base", "y"), ("name", "x"), ("line", "3")] .nil .nil)) .nil)

/-- The declaration that an object refers to gets lost when it is behind one that moves:
the name becomes one of the default package, which the document asks for. -/
theorem reference_out_of_sight_lost :
    Numbered usedOutOfSight ∧ Pass.optimized usedOutOfSight = .ok (settled usedOutOfSight) ∧
    ∃ placed ∈ (prepared usedOutOfSight).placements, placed.moves = false ∧
      placed.tag.get? "line" = some "4" ∧
      placed.resolution (prepared usedOutOfSight).topLevel = some "3" ∧
      ∃ after ∈ (settled usedOutOfSight).objectTags, after.get? "line" = some "4" ∧
        after.get? "ref" = none ∧ after.get? "base" = some "org.eolang.x" ∧
        Document.foreignName? after = some "org.eolang.x" :=
  ⟨⟨by decide +kernel, by decide +kernel⟩, by decide +kernel, by decide +kernel⟩

end EoAssembly
