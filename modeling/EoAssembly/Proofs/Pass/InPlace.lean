import Mathlib.Data.List.Perm.Subperm
import EoAssembly.Proofs.Pass.Underway

/-!
Contract: moving the nested declarations one after the other is what the document before tells.

One more move keeps what is known of the document under edit, so the moves end with every
reference in its place and every declaration behind the top-level objects.

Owns that the edits and the walk of the pass answer the same document, and which one.
-/

namespace EoAssembly.Pass

open Xml (Tag Content)
open Xml.Content (elements keys tops exchanged)
open Document (childObjects)

/-! ## One more move -/

theorem leftOf_concat (made : List Move) (move : Move) {key : Nat}
    (hasKey : move.1.tag.key = some key) (stays : leftOf made key = none) :
    leftOf (made ++ [move]) = leftToo (leftOf made) key move.reference := by
  funext other
  unfold leftOf at stays
  rw [Option.map_eq_none_iff] at stays
  unfold leftOf leftToo
  rw [List.find?_append]
  by_cases same : other = key
  · subst same
    simp [stays, hasKey]
  · have apart : (move.1.tag.key == some other) = false := by
      simp [hasKey, Ne.symm same]
    simp [same, apart]

theorem forestOf_append (first second : List Floated) :
    forestOf (first ++ second) = (forestOf first).append (forestOf second) := by
  induction first with
  | nil => rfl
  | cons declaration rest inductionHypothesis =>
    simp [forestOf, Content.append, inductionHypothesis]

theorem exchanged_forestOf {key : Nat} {reference : Tag} {floated : List Floated}
    (apart : ∀ declaration ∈ floated, declaration.tag.key ≠ some key) :
    exchanged key reference (forestOf floated) = forestOf (floated.map fun declaration =>
      { declaration with content := exchanged key reference declaration.content }) := by
  induction floated with
  | nil => rfl
  | cons declaration rest inductionHypothesis =>
    simp [forestOf, exchanged, apart declaration List.mem_cons_self,
      inductionHypothesis fun other member => apart other (List.mem_cons_of_mem _ member)]

theorem key_copyAttribute (name : String) (source target : Tag) (key : Option Nat) :
    copyAttribute name source { target with key := key } =
      { copyAttribute name source target with key := key } := by
  unfold copyAttribute
  cases source.get? name <;> rfl

section Step

variable {document : Document} {bound list : Nat} {made : List Move} {editor : Editor}
  (marked : Marked document bound list) (underway : Underway document bound list made editor)
include marked

theorem Marked.list_lt : list < bound := by
  obtain ⟨found, among, hasKey, _⟩ := marked.exists_list
  obtain ⟨number, small, isNumber⟩ := marked.below _ (List.mem_map.2 ⟨found, among, rfl⟩)
  have equal := Option.some.inj (hasKey.symm.trans isNumber)
  omega

theorem Marked.length_le : document.whole.elements.length ≤ bound := by
  have few : document.whole.keys.length ≤ ((List.range bound).map some).length := by
    refine (marked.distinct.subperm fun key member => ?_).length_le
    obtain ⟨number, small, rfl⟩ := marked.below key member
    exact List.mem_map.2 ⟨number, List.mem_range.2 small, rfl⟩
  simpa [keys] using few

include underway

omit marked in
theorem Underway.reference_large {key : Nat} {reference : Tag}
    (isLeft : leftOf made key = some reference) : ∀ number < bound,
      reference.key ≠ some number := by
  obtain ⟨move, member, _, rfl⟩ := leftOf_some isLeft
  intro number small same
  have large := (underway.fresh move member).1
  have equal := Option.some.inj same
  omega

theorem Underway.list_not_inside {spot : Spot} (among : spot ∈ nestedOf document) :
    some list ∉ (contentOf made list spot).keys := by
  intro member
  have absent := marked.list_not_inside among
  rcases keys_midway member absent with before | ⟨found, isLeft, isKey⟩
  · exact absent before
  · obtain ⟨other, _, isReference⟩ := List.mem_filterMap.1 isLeft
    obtain ⟨reference, isReference, same⟩ := Option.map_eq_some_iff.1 isReference
    obtain ⟨key, _, isReference⟩ := Option.bind_eq_some_iff.1 isReference
    rw [← same] at isKey
    exact underway.reference_large isReference list marked.list_lt isKey

theorem Underway.list_not_brought : some list ∉ (broughtBy made list).keys := by
  unfold broughtBy keys
  rw [elements_forestOf, List.flatMap_map, List.mem_map]
  rintro ⟨found, member, isKey⟩
  obtain ⟨move, among, inside⟩ := List.mem_flatMap.1 member
  have nested := underway.nested move among
  rcases List.mem_cons.1 inside with here | within
  · rw [here] at isKey
    exact marked.nested_ne_list nested isKey
  · exact underway.list_not_inside marked nested (List.mem_map.2 ⟨found, within, isKey⟩)

omit marked in
/-- What a declaration holds when it moves. -/
theorem Underway.contentOf_concat {spot : Spot} (other : Spot) {reference : Tag} {key : Nat} (stays : leftOf made key = none) (small : key < bound)
    (after : leftOf (made ++ [(spot, editor.next)]) = leftToo (leftOf made) key reference) :
    contentOf (made ++ [(spot, editor.next)]) list other =
      exchanged key reference (contentOf made list other) := by
  unfold contentOf
  rw [after, exchanged_midway _ stays fun _ _ isLeft =>
    underway.reference_large isLeft key small]
  rfl

/-- A nested declaration that has not moved has a parent. -/
theorem Underway.exists_parent {spot : Spot} (among : spot ∈ nestedOf document)
    (stays : leftBy (leftOf made) spot.tag = none)
    (outerStays : ∀ outer ∈ spots document, outer.depth < spot.depth →
      leftBy (leftOf made) outer.tag = none) :
    ∃ holder, editor.document.whole.parentOf? spot.key none = some (some holder) := by
  obtain ⟨standing, nested⟩ := List.mem_filter.1 among
  rcases underway.seen marked standing stays outerStays with
    ⟨around, _⟩ | ⟨parent, _, _, isParent, _⟩
  · simp [Spot.nested, around] at nested
  · unfold Editor.parentObject? at isParent
    obtain ⟨holder, isHolder, _⟩ := Option.bind_eq_some_iff.1 isParent
    have isHolder := (Option.filter_eq_some_iff.1 isHolder).1
    unfold Editor.parent? at isHolder
    rw [underway.forests_eq, List.findSome?_singleton, Option.join_eq_some_iff] at isHolder
    exact ⟨holder, isHolder⟩

/-- What one more move makes of a forest. -/
theorem Underway.midway_concat {spot : Spot} (among : spot ∈ nestedOf document)
    (stays : leftOf made spot.key = none) :
    (exchanged spot.key (Move.reference (spot, editor.next)) editor.document.whole).modifyChildren
      list (fun children => children.append
        (.single (spot.tag.set "name" (fullName uncounted spot.chain))
          (contentOf made list spot))) =
      midway (leftOf (made ++ [(spot, editor.next)])) list
        (broughtBy (made ++ [(spot, editor.next)]) list) document.whole := by
  obtain ⟨spotKey, small⟩ := marked.key_eq (List.mem_filter.1 among).1
  have after := leftOf_concat made (spot, editor.next) spotKey stays
  have room := underway.room
  have brought : exchanged spot.key (Move.reference (spot, editor.next)) (broughtBy made list) =
      forestOf (made.map fun move => ⟨move.1.depth,
        move.1.tag.set "name" (fullName uncounted move.1.chain),
        contentOf (made ++ [(spot, editor.next)]) list move.1⟩) := by
    unfold broughtBy
    rw [exchanged_forestOf, List.map_map]
    · refine congrArg forestOf (List.map_congr_left fun move member => ?_)
      simp only [Function.comp_apply, underway.contentOf_concat move.1 stays small after]
    · intro declaration member same
      obtain ⟨move, moved, rfl⟩ := List.mem_map.1 member
      have left := leftBy_isSome moved same
      unfold leftBy at left
      rw [show move.1.tag.key = some spot.key from same, Option.bind_some, stays] at left
      exact absurd left (by decide)
  have own : contentOf (made ++ [(spot, editor.next)]) list spot = contentOf made list spot := by
    rw [underway.contentOf_concat spot stays small after]
    refine Content.exchanged_absent fun member => ?_
    rcases keys_midway member (marked.list_not_inside among) with before | ⟨found, isLeft, isKey⟩
    · exact Content.inside_absent (marked.once spot.key)
        (spotsIn_elements (List.mem_filter.1 among).1) spotKey before
    · obtain ⟨other, _, isReference⟩ := List.mem_filterMap.1 isLeft
      obtain ⟨reference, isReference, same⟩ := Option.map_eq_some_iff.1 isReference
      obtain ⟨key, _, isReference⟩ := Option.bind_eq_some_iff.1 isReference
      rw [← same] at isKey
      exact underway.reference_large isReference spot.key small isKey
  have all : broughtBy (made ++ [(spot, editor.next)]) list =
      (exchanged spot.key (Move.reference (spot, editor.next)) (broughtBy made list)).append
        (.single (spot.tag.set "name" (fullName uncounted spot.chain))
          (contentOf made list spot)) := by
    rw [brought, ← own]
    unfold broughtBy
    rw [List.map_append, forestOf_append]
    rfl
  rw [underway.whole_eq marked, exchanged_midway _ stays fun _ _ isLeft =>
    underway.reference_large isLeft spot.key small, ← after, all]
  refine modifyChildren_midway _ _ (fun other tag isLeft => ?_) fun member => ?_
  · rw [after] at isLeft
    unfold leftToo at isLeft
    split at isLeft
    · rw [← Option.some.inj isLeft]
      intro same
      have equal := Option.some.inj same
      have listLt := marked.list_lt
      omega
    · exact underway.reference_large isLeft list marked.list_lt
  · rcases Content.keys_exchanged member with before | isNext
    · exact underway.list_not_brought marked before
    · have equal := Option.some.inj isNext
      have listLt := marked.list_lt
      omega

end Step

/-- A move, as far as the forests of the editor go. -/
theorem Editor.moveUp_eq {current : Document} {next list key : Nat} {source holder : Tag}
    {content : Content} {full : String}
    (chain : Text.joinAll scopeMark ((⟨current, [], next⟩ : Editor).chainOf next key) = full)
    (found : current.whole.find? key = some (source, content)) (hasKey : source.key = some key)
    (once : current.whole.keys.count (some key) ≤ 1)
    (hasParent : current.whole.parentOf? key none = some (some holder))
    (inner : current.root.tag.key ≠ some key) (absent : some next ∉ current.whole.keys)
    (notList : key ≠ list) (without : some list ∉ content.keys) :
    (⟨current, [], next⟩ : Editor).moveUp list key =
      .ok ⟨current.withWhole ((exchanged key { referenceTo full source with key := some next }
        current.whole).modifyChildren list fun children =>
          children.append (.single (source.set "name" full) content)), [], next + 1⟩ := by
  have isSource : (⟨current, [], next⟩ : Editor).tag? key = some source := by
    simp [Editor.tag?, Editor.find?, Editor.forests, found]
  have fresh : next ≠ key := by
    rintro rfl
    rw [Content.find?_absent absent] at found
    exact absurd found (by simp)
  -- the reference is described and stands before the declaration
  have described : (⟨current, [.single { Tag.plain objectLabel with key := some next } .nil],
      next + 1⟩ : Editor).modifyTag next (fun tag => copyAttribute "pos" source
        (copyAttribute "line" source (copyAttribute "name" source (tag.set "base" full)))) =
      ⟨current, [.single { referenceTo full source with key := some next } .nil], next + 1⟩ := by
    refine (Editor.modifyTag_loose absent rfl (by simp) _).trans ?_
    congr 3
    unfold referenceTo
    rw [← key_copyAttribute, ← key_copyAttribute, ← key_copyAttribute]
    rfl
  generalize isReference : ({ referenceTo full source with key := some next } : Tag) = reference
    at described ⊢
  have freshKey : reference.key = some next := by rw [← isReference]
  have apart : reference.key ≠ some key := fun same =>
    fresh (Option.some.inj (freshKey.symm.trans same))
  have placed := @Editor.insertBefore_loose current key (next + 1) next reference holder freshKey
    absent fresh hasParent
  -- the declaration is taken out, so that the reference has its place
  have notInside := Content.inside_absent once (Content.find?_mem found).1 hasKey
  have isFound : (Content.insertedBefore key reference .nil current.whole).find? key =
      some (source, content) := by
    rw [Content.find?_insertedBefore _ apart, found, Option.map_some,
      Content.insertedBefore_absent notInside]
  rw [Editor.insertedBefore_whole inner] at placed isFound
  have detached := @Editor.detach_once (current.withWhole (.element current.root.tag
    (Content.insertedBefore key reference .nil current.root.content) .nil)) _ _ _ (next + 1)
    inner isFound
  have exchange := Content.insertedBefore_without current.whole apart
  rw [Editor.insertedBefore_whole inner, Editor.exchanged_whole inner] at exchange
  rw [Editor.whole_withWhole, exchange, Editor.withWhole_withWhole] at detached
  -- it is renamed, and stands behind the other top-level objects
  have gone := Content.exchanged_without_key current.whole apart
  rw [Editor.exchanged_whole inner] at gone ⊢
  have renamed := @Editor.modifyTag_loose (current.withWhole (.element current.root.tag
    (exchanged key reference current.root.content) .nil)) source content key (next + 1) gone
    hasKey notInside fun tag => tag.set "name" full
  have appended := @Editor.append_loose (current.withWhole (.element current.root.tag
    (exchanged key reference current.root.content) .nil)) (source.set "name" full) content key
    (next + 1) list gone hasKey notList without
  unfold Editor.moveUp
  simp only [isSource, chain, Option.getD_some, Editor.create, List.nil_append, described, placed,
    detached, renamed]
  exact appended

section Step

variable {document : Document} {bound list : Nat} {made : List Move} {editor : Editor}
  (marked : Marked document bound list) (underway : Underway document bound list made editor)
include marked underway

/-- An editor whose document is the one behind one more move has made that move. -/
theorem Underway.concat {spot : Spot} {changed : Content} (among : spot ∈ nestedOf document)
    (stays : leftBy (leftOf made) spot.tag = none)
    (isMidway : changed = midway (leftOf (made ++ [(spot, editor.next)])) list
      (broughtBy (made ++ [(spot, editor.next)]) list) document.whole)
    (isElement : ∃ tag children, changed = .element tag children .nil) :
    Underway document bound list (made ++ [(spot, editor.next)])
      ⟨editor.document.withWhole changed, [], editor.next + 1⟩ := by
  have room := underway.room
  constructor
  · obtain ⟨tag, children, isElement⟩ := isElement
    rw [← isMidway, isElement, underway.document_eq, Editor.withWhole_withWhole]
  · rfl
  · simp only
    omega
  · intro move member
    rcases List.mem_append.1 member with before | isNew
    · have fresh := underway.fresh move before
      simp only
      omega
    · rw [List.mem_singleton.1 isNew]
      simp only
      omega
  · intro move member
    rcases List.mem_append.1 member with before | isNew
    · exact underway.nested move before
    · rw [List.mem_singleton.1 isNew]
      exact among
  · rw [List.map_append, List.nodup_append]
    refine ⟨underway.distinct, by simp, fun key before other isNew same => ?_⟩
    obtain ⟨move, member, rfl⟩ := List.mem_map.1 before
    simp only [List.map_cons, List.map_nil, List.mem_singleton] at isNew
    have gone := leftBy_isSome member (underway.key_eq marked member).1
    unfold leftBy at gone stays
    rw [same, isNew, stays] at gone
    exact absurd gone (by decide)

/-- One more declaration moves. -/
theorem Underway.moveUp {spot : Spot} (among : spot ∈ nestedOf document)
    (stays : leftBy (leftOf made) spot.tag = none)
    (outerStays : ∀ outer ∈ spots document, outer.depth < spot.depth →
      leftBy (leftOf made) outer.tag = none) :
    ∃ later, editor.moveUp list spot.key = .ok later ∧ later.next = editor.next + 1 ∧
      Underway document bound list (made ++ [(spot, editor.next)]) later := by
  have standing : spot ∈ spots document := (List.mem_filter.1 among).1
  obtain ⟨spotKey, small⟩ := marked.key_eq standing
  have room := underway.room
  have within : spot.depth ≤ editor.next := by
    have few := depth_lt spot standing
    have all := marked.length_le
    simp only [List.length_nil] at few
    omega
  have chain := (underway.chainOf_eq marked standing stays outerStays within).1
  have found := underway.find?_eq marked (spotsIn_elements standing) spotKey stays
  have isContent : midwayIn (leftOf made) list (broughtBy made list) (spot.tag, spot.content) =
      (spot.tag, contentOf made list spot) := by
    unfold midwayIn contentOf
    simp only [marked.nested_ne_list among, if_false]
    rw [midway_apart (marked.list_not_inside among) .nil]
  rw [isContent] at found
  have inner : editor.document.root.tag.key ≠ some spot.key := by
    rw [underway.root_eq marked]
    intro same
    have distinct := marked.distinct
    unfold Document.whole at distinct
    rw [Content.keys_element, List.nodup_cons, same, ← spotKey] at distinct
    exact distinct.1 (List.mem_append_left _ (Content.key_mem_keys (nested_elements among)))
  have notList : spot.key ≠ list := fun same =>
    marked.nested_ne_list among (spotKey.trans (congrArg some same))
  obtain ⟨holder, hasParent⟩ := underway.exists_parent marked among stays outerStays
  have unmoved : leftOf made spot.key = none := by
    unfold leftBy at stays
    rw [spotKey, Option.bind_some] at stays
    exact stays
  have made_eq := underway.midway_concat marked among unmoved
  have shape : (⟨editor.document, [], editor.next⟩ : Editor) = editor := by
    rw [← underway.detached]
  have full : Text.joinAll scopeMark
      ((⟨editor.document, [], editor.next⟩ : Editor).chainOf editor.next spot.key) =
      fullName uncounted spot.chain := by
    rw [shape, chain]
    rfl
  have moved := Editor.moveUp_eq full found spotKey
    (underway.once marked small) hasParent inner (underway.next_absent marked) notList
    (underway.list_not_inside marked among)
  rw [shape] at moved
  exact ⟨_, moved, rfl, underway.concat marked among stays made_eq
    ⟨_, _, by rw [Editor.exchanged_whole inner]; rfl⟩⟩

end Step

/-! ## All moves -/

section Loop

variable {document : Document} {bound list : Nat} (marked : Marked document bound list)
include marked

theorem Marked.spots_distinct : ((spots document).map fun spot => spot.tag.key).Nodup := by
  have objects := spotsIn_objects document.whole [] 0
  have keys : (spots document).map (fun spot => spot.tag.key) =
      (document.whole.allNamed objectLabel).map fun found => found.1.key := by
    rw [← objects, List.map_map]
    rfl
  rw [keys, Content.allNamed_eq]
  exact marked.distinct.sublist (List.filter_sublist.map _)

theorem Marked.spot_eq {one other : Spot} (isOne : one ∈ spots document)
    (isOther : other ∈ spots document) (sameKey : one.tag.key = other.tag.key) : one = other :=
  List.inj_on_of_nodup_map marked.spots_distinct isOne isOther sameKey

/-- All declarations move in turn. -/
theorem Underway.moveAll {made : List Move} {editor : Editor} {todo : List Spot}
    (underway : Underway document bound list made editor)
    (turns : made.map Prod.fst ++ todo = turnsOf document) :
    ∃ later all, Editor.moveAll list (todo.map Spot.key) editor = .ok later ∧
      Underway document bound list all later ∧ all.map Prod.fst = turnsOf document := by
  induction todo generalizing made editor with
  | nil => exact ⟨editor, made, rfl, underway, by simpa using turns⟩
  | cons spot rest inductionHypothesis =>
    have inTurn := inTurn_mergeSort (nestedOf document)
    have member : spot ∈ turnsOf document := by
      rw [← turns]
      simp
    have among : spot ∈ nestedOf document := inTurn.same.subset member
    have standing : spot ∈ spots document := (List.mem_filter.1 among).1
    have deepest : (turnsOf document).Pairwise fun first second =>
      second.depth ≤ first.depth := inTurn.deepest
    have distinct : ((turnsOf document).map fun spot => spot.tag.key).Nodup :=
      (inTurn.same.map _).nodup_iff.2 (marked.spots_distinct.sublist (List.filter_sublist.map _))
    rw [← turns, List.pairwise_append] at deepest
    rw [← turns, List.map_append, List.nodup_append] at distinct
    have stays : leftBy (leftOf made) spot.tag = none :=
      leftBy_none fun move before same => distinct.2.2 _
        (List.mem_map.2 ⟨move.1, List.mem_map.2 ⟨move, before, rfl⟩, rfl⟩) _
        (List.mem_map.2 ⟨spot, List.mem_cons_self, rfl⟩) same
    have outerStays : ∀ outer ∈ spots document, outer.depth < spot.depth →
        leftBy (leftOf made) outer.tag = none := by
      intro outer isOuter smaller
      refine leftBy_none fun move before same => ?_
      have equal := marked.spot_eq (List.mem_filter.1 (underway.nested move before)).1 isOuter same
      have deeper := deepest.2.2 move.1 (List.mem_map.2 ⟨move, before, rfl⟩) spot
        List.mem_cons_self
      rw [equal] at deeper
      omega
    obtain ⟨next, moved, _, progress⟩ := underway.moveUp marked among stays outerStays
    obtain ⟨later, all, rest, finished, whole⟩ := inductionHypothesis progress (by simpa using turns)
    refine ⟨later, all, ?_, finished, whole⟩
    simp only [List.map_cons, Editor.moveAll, moved]
    exact rest

/-- The declarations and their order are read before the first move. -/
theorem Marked.turns_eq {editor : Editor} (underway : Underway document bound list [] editor) :
    editor.turns = (turnsOf document).map fun spot => (spot.depth, spot.key) := by
  have all : editor.document.allObjects = document.allObjects := by
    unfold Document.allObjects
    rw [underway.whole_eq marked, show leftOf [] = fun _ => none from rfl,
      show broughtBy [] list = .nil from rfl, midway_none]
  have stays : ∀ tag, leftBy (leftOf []) tag = none := fun tag =>
    leftBy_none fun move member => absurd member List.not_mem_nil
  have keys : editor.allObjects = (spots document).map Spot.key := by
    unfold Editor.allObjects Editor.keysOf
    rw [all, show document.allObjects = document.whole.allNamed objectLabel from rfl,
      ← spotsIn_objects document.whole [] 0, List.filterMap_map]
    show (spots document).filterMap _ = _
    rw [← List.filterMap_eq_map]
    exact List.filterMap_congr fun spot member => (marked.key_eq member).1
  have nested : ∀ spot ∈ spots document, (editor.hasAttribute spot.key "abstract" &&
      (editor.parentObject? spot.key).isSome) = spot.nested := by
    intro spot member
    unfold Editor.hasAttribute Spot.nested
    rw [underway.tag?_eq marked member (stays _)]
    rcases underway.seen marked member (stays _) fun _ _ _ => stays _ with
      ⟨around, noParent⟩ | ⟨parent, _, under, isParent, _⟩
    · simp [around, noParent]
    · simp [under, isParent, Spot.chain]
  have depth : ∀ spot ∈ spots document, editor.depth editor.next spot.key = spot.depth := by
    intro spot member
    refine (underway.chainOf_eq marked member (stays _) (fun _ _ _ => stays _) ?_).2
    have few := depth_lt spot member
    have length := marked.length_le
    have room := underway.room
    simp only [List.length_nil] at few
    omega
  unfold Editor.turns turnsOf nestedOf
  have chosen : (spots document).filter ((fun key => editor.hasAttribute key "abstract" &&
      (editor.parentObject? key).isSome) ∘ Spot.key) = (spots document).filter Spot.nested :=
    List.filter_congr nested
  rw [keys, List.filter_map, List.map_map, chosen]
  have same : ((spots document).filter Spot.nested).map ((fun key =>
      (editor.depth editor.next key, key)) ∘ Spot.key) =
      ((spots document).filter Spot.nested).map fun spot => (spot.depth, spot.key) :=
    List.map_congr_left fun spot member => by
      simp only [Function.comp_apply, depth spot (List.mem_filter.1 member).1]
  rw [same]
  exact (List.map_mergeSort (f := fun spot : Spot => (spot.depth, spot.key))
    fun _ _ _ _ => rfl).symm

end Loop

/-! ## Documents without keys -/

/-- A tag without its key. -/
abbrev bare (tag : Tag) : Tag := { tag with key := none }

theorem bare_referenceTo (full : String) (tag : Tag) (key : Option Nat) :
    bare { referenceTo full tag with key := key } = referenceTo full (bare tag) := by
  have source : ∀ name target, copyAttribute name (bare tag) target =
      copyAttribute name tag target := fun _ _ => rfl
  have copied : ∀ name target, (copyAttribute name tag target).key = target.key := by
    intro name target
    unfold copyAttribute
    cases tag.get? name <;> rfl
  have noKey : (referenceTo full tag).key = none := by
    unfold referenceTo
    rw [copied, copied, copied]
    rfl
  have same : referenceTo full (bare tag) = referenceTo full tag := by
    unfold referenceTo
    rw [source, source, source]
  rw [same]
  show bare (referenceTo full tag) = _
  cases isReference : referenceTo full tag with
  | mk name declarations attributes own =>
    rw [isReference] at noKey
    rw [show own = none from noKey]

theorem unkeyed_append (content behind : Content) :
    (content.append behind).unkeyed = content.unkeyed.append behind.unkeyed := by
  induction content with
  | nil => rfl
  | leaf node rest inductionHypothesis => exact congrArg (Content.leaf node) inductionHypothesis
  | element tag children rest _ restHypothesis =>
    exact congrArg (Content.element _ _) restHypothesis

theorem unkeyed_modifyFirst (label : String) (behind content : Content) :
    (content.modifyFirst label fun children => children.append behind).unkeyed =
      content.unkeyed.modifyFirst label fun children => children.append behind.unkeyed := by
  induction content with
  | nil => rfl
  | leaf node rest inductionHypothesis => exact congrArg (Content.leaf node) inductionHypothesis
  | element tag children rest _ restHypothesis =>
    have name : (bare tag).isNamed label = tag.isNamed label := rfl
    by_cases found : tag.isNamed label = true
    · simp only [Content.modifyFirst, Content.unkeyed, name, found, if_true, unkeyed_append]
    · simp only [Content.modifyFirst, Content.unkeyed, name, found, Bool.false_eq_true, if_false,
        restHypothesis]

/-- A declaration on its way up, without keys. -/
def bareFloated (declaration : Floated) : Floated :=
  ⟨declaration.depth, bare declaration.tag, declaration.content.unkeyed⟩

theorem unkeyed_forestOf (floated : List Floated) :
    (forestOf floated).unkeyed = forestOf (floated.map bareFloated) := by
  induction floated with
  | nil => rfl
  | cons declaration rest inductionHypothesis =>
    simp [forestOf, Content.unkeyed, bareFloated, inductionHypothesis]

/-- The walk of the pass takes no account of keys. -/
theorem lift_unkeyed (content : Content) (chain : List String) (index : Nat) :
    lift chain index content.unkeyed = ((lift chain index content).1.unkeyed,
      (lift chain index content).2.map bareFloated) := by
  induction content generalizing chain index with
  | nil => rfl
  | leaf node rest inductionHypothesis =>
    simp [lift, Content.unkeyed, inductionHypothesis]
  | element tag children rest innerHypothesis restHypothesis =>
    have name : ownName (bare tag) = ownName tag := rfl
    have abstract : (bare tag).has "abstract" = tag.has "abstract" := rfl
    have label : (bare tag).isNamed objectLabel = tag.isNamed objectLabel := rfl
    by_cases object : tag.isNamed objectLabel = true
    · by_cases moves : (!chain.isEmpty && tag.has "abstract") = true
      · simp only [Content.unkeyed, lift, label, object, if_true, name, abstract, moves,
          innerHypothesis, restHypothesis, List.map_append, List.map_cons]
        rw [← bare_referenceTo _ tag none]
        rfl
      · simp only [Content.unkeyed, lift, label, object, if_true, name, abstract, moves,
          innerHypothesis, restHypothesis, List.map_append, Bool.false_eq_true, if_false]
    · simp only [Content.unkeyed, lift, label, object, innerHypothesis, restHypothesis,
        List.map_append, Bool.false_eq_true, if_false]

theorem deepestFirst_bare (floated : List Floated) :
    deepestFirst (floated.map bareFloated) = (deepestFirst floated).map bareFloated := by
  unfold deepestFirst
  exact (List.map_mergeSort (f := bareFloated) fun _ _ _ _ => rfl).symm

/-- The pass takes no account of keys. -/
theorem floatedUp_unkeyed (document : Document) :
    floatedUp document.unkeyed = (floatedUp document).unkeyed := by
  have chain : chainOfRoot document.unkeyed = chainOfRoot document := rfl
  have content : document.unkeyed.root.content = document.root.content.unkeyed := rfl
  unfold floatedUp liftedContent
  rw [chain, content, lift_unkeyed, deepestFirst_bare, ← unkeyed_forestOf]
  rw [← unkeyed_modifyFirst]
  rfl

theorem unkeyed_keyed (content : Content) (next : Nat) :
    (content.keyed next).1.unkeyed = content.unkeyed := by
  induction content generalizing next with
  | nil => rfl
  | leaf node rest inductionHypothesis =>
    exact congrArg (Content.leaf node) (inductionHypothesis next)
  | element tag children rest innerHypothesis restHypothesis =>
    simp only [Content.keyed, Content.unkeyed, innerHypothesis, restHypothesis]
    cases isKey : tag.key <;> rfl

theorem unkeyed_unkeyed (content : Content) : content.unkeyed.unkeyed = content.unkeyed := by
  induction content with
  | nil => rfl
  | leaf node rest inductionHypothesis => exact congrArg (Content.leaf node) inductionHypothesis
  | element tag children rest innerHypothesis restHypothesis =>
    simp only [Content.unkeyed, innerHypothesis, restHypothesis]

/-- The elements of a document that is opened get different keys. -/
theorem keys_keyed (content : Content) (next : Nat) :
    (content.unkeyed.keyed next).2 = next + content.elements.length ∧
      (content.unkeyed.keyed next).1.keys =
        (List.range' next content.elements.length).map some := by
  induction content generalizing next with
  | nil => exact ⟨rfl, rfl⟩
  | leaf node rest inductionHypothesis => exact inductionHypothesis next
  | element tag children rest innerHypothesis restHypothesis =>
    obtain ⟨afterInner, innerKeys⟩ := innerHypothesis (next + 1)
    obtain ⟨afterRest, restKeys⟩ := restHypothesis (next + 1 + children.elements.length)
    have length : (Content.element tag children rest).elements.length =
        children.elements.length + rest.elements.length + 1 := by
      simp [elements]
    simp only [Content.unkeyed, Content.keyed, afterInner, Content.keys_element, innerKeys,
      restKeys, afterRest, length]
    refine ⟨by omega, ?_⟩
    rw [List.range'_succ, ← List.range'_append_1, List.map_cons, List.map_append]

/-! ## After the last move -/

/-- With all references in their places, a forest is the one that is told by what it was. -/
theorem unkeyed_midway {left : Nat → Option Tag} {list : Nat} (content : Content)
    (around : List (Tag × Nat)) (index : Nat)
    (others : ∀ found ∈ content.elements, found.1.isNamed objectLabel = false →
      leftBy left found.1 = none)
    (objects : ∀ spot ∈ spotsIn around index content, if spot.nested then
      ∃ key, leftBy left spot.tag =
        some { referenceTo (fullName uncounted spot.chain) spot.tag with key := key }
      else leftBy left spot.tag = none) :
    (midway left list .nil content).unkeyed =
      (replacedIn uncounted around index content).unkeyed := by
  induction content generalizing around index with
  | nil => rfl
  | leaf node rest inductionHypothesis =>
    exact congrArg (Content.leaf node) (inductionHypothesis around index others objects)
  | element tag children rest innerHypothesis restHypothesis =>
    have innerOthers := fun found member => others found
      (List.mem_cons_of_mem (tag, children) (List.mem_append_left rest.elements member))
    have restOthers := fun found member => others found
      (List.mem_cons_of_mem (tag, children) (List.mem_append_right children.elements member))
    by_cases object : tag.isNamed objectLabel = true
    · simp only [spotsIn, object, if_true, List.mem_cons, List.mem_append] at objects
      have own := objects _ (Or.inl rfl)
      have inner := innerHypothesis (around ++ [(tag, index)]) 0 innerOthers fun spot member =>
        objects spot (Or.inr (Or.inl member))
      have later := restHypothesis around (index + 1) restOthers fun spot member =>
        objects spot (Or.inr (Or.inr member))
      by_cases moves : (!around.isEmpty && tag.has "abstract") = true
      · simp only [Spot.nested, moves, if_true, Spot.chain] at own
        obtain ⟨key, isLeft⟩ := own
        simp only [midway, isLeft, replacedIn, object, moves, if_true, Content.unkeyed, later]
      · simp only [Spot.nested, moves, Bool.false_eq_true, if_false] at own
        simp only [midway, own, replacedIn, object, moves, if_true, Bool.false_eq_true, if_false,
          Content.append_nil, ite_self, Content.unkeyed, inner, later]
    · simp only [spotsIn, object, Bool.false_eq_true, if_false, List.mem_append] at objects
      have own := others (tag, children) List.mem_cons_self (by simpa using object)
      have inner := innerHypothesis [] 0 innerOthers fun spot member =>
        objects spot (Or.inl member)
      have later := restHypothesis around index restOthers fun spot member =>
        objects spot (Or.inr member)
      simp only at own
      simp only [midway, own, replacedIn, object, Bool.false_eq_true, if_false,
        Content.append_nil, ite_self, Content.unkeyed, inner, later]

/-- What is brought to the element that lists the top-level objects. -/
theorem midway_modifyFirst {left : Nat → Option Tag} {list : Nat} {behind : Content}
    {content : Content} {found : Tag × Content} (once : content.keys.count (some list) ≤ 1)
    (first : (content.named objectsLabel).head? = some found) (hasKey : found.1.key = some list)
    (objects : ∀ found ∈ content.elements, ∀ reference, leftBy left found.1 = some reference →
      found.1.isNamed objectLabel = true ∧ reference.isNamed objectLabel = true) :
    midway left list behind content =
      (midway left list .nil content).modifyFirst objectsLabel fun children =>
        children.append behind := by
  induction content with
  | nil => simp [Content.named] at first
  | leaf node rest inductionHypothesis =>
    exact congrArg (Content.leaf node) (inductionHypothesis once first objects)
  | element tag children rest _ restHypothesis =>
    rw [Content.keys_element, List.count_cons, List.count_append] at once
    by_cases isList : tag.isNamed objectsLabel = true
    · simp only [Content.named, isList, if_true, List.head?_cons, Option.some.injEq] at first
      rw [← first] at hasKey
      have stays : leftBy left tag = none := by
        cases isLeft : leftBy left tag with
        | none => rfl
        | some reference =>
          have object := (objects _ List.mem_cons_self reference isLeft).1
          simp only [Xml.Tag.objects_not_object isList] at object
          exact absurd object (by decide)
      simp only at hasKey
      simp only [hasKey, beq_self_eq_true, if_true] at once
      have inner : some list ∉ children.keys := List.count_eq_zero.1 (by omega)
      have later : some list ∉ rest.keys := List.count_eq_zero.1 (by omega)
      simp only [midway, stays, hasKey, if_true, Content.modifyFirst, isList, Content.append_nil]
      rw [midway_apart inner .nil, midway_apart later .nil]
    · simp only [Content.named, isList, Bool.false_eq_true, if_false] at first
      have top := (Content.mem_named (List.mem_of_head? first)).2.2
      have present : 0 < rest.keys.count (some list) :=
        List.count_pos_iff.2 (hasKey ▸ Content.keys_of_tops top)
      have notOwn : tag.key ≠ some list := fun own => by
        simp only [own, beq_self_eq_true, if_true] at once
        omega
      have inner : some list ∉ children.keys := List.count_eq_zero.1 (by omega)
      have later := restHypothesis (by omega) first fun found member =>
        objects found (List.mem_cons_of_mem _ (List.mem_append_right _ member))
      cases isLeft : leftBy left tag with
      | some reference =>
        have object := (objects _ List.mem_cons_self reference isLeft).2
        have notList : reference.isNamed objectsLabel = false :=
          Xml.Tag.isPlain_apart (by decide) object
        simp only [midway, isLeft, Content.modifyFirst, notList, Bool.false_eq_true, if_false,
          later]
      | none =>
        simp only [midway, isLeft, notOwn, if_false, Content.modifyFirst, isList,
          Bool.false_eq_true, later]
        rw [midway_apart inner .nil]

section Finished

variable {document : Document} {bound list : Nat} {all : List Move} {editor : Editor}
  (marked : Marked document bound list) (underway : Underway document bound list all editor)
  (whole : all.map Prod.fst = turnsOf document)
include marked underway whole

/-- In the end exactly the nested declarations have left references. -/
theorem Underway.finished {spot : Spot} (among : spot ∈ spots document) :
    if spot.nested then ∃ key, leftBy (leftOf all) spot.tag =
      some { referenceTo (fullName uncounted spot.chain) spot.tag with key := key }
    else leftBy (leftOf all) spot.tag = none := by
  have same : ∀ move ∈ all, move.1.tag.key = spot.tag.key → move.1 = spot :=
    fun move member => marked.spot_eq (List.mem_filter.1 (underway.nested move member)).1 among
  split
  next nested =>
    have member : spot ∈ turnsOf document :=
      (inTurn_mergeSort _).same.symm.subset (List.mem_filter.2 ⟨among, nested⟩)
    rw [← whole] at member
    obtain ⟨move, moved, isSpot⟩ := List.mem_map.1 member
    have gone := leftBy_isSome moved (underway.key_eq marked moved).1
    rw [isSpot] at gone
    obtain ⟨reference, isLeft⟩ := Option.isSome_iff_exists.1 gone
    obtain ⟨other, isOther, sameKey, isReference⟩ := leftBy_some isLeft
    refine ⟨some other.2, ?_⟩
    rw [isLeft, isReference, Move.reference, same other isOther sameKey]
  next stays =>
    refine leftBy_none fun move member sameKey => stays ?_
    rw [← same move member sameKey]
    exact (List.mem_filter.1 (underway.nested move member)).2

omit whole in
theorem Underway.others {found : Tag × Content} (among : found ∈ document.whole.elements)
    (other : found.1.isNamed objectLabel = false) : leftBy (leftOf all) found.1 = none := by
  cases isLeft : leftBy (leftOf all) found.1 with
  | none => rfl
  | some reference =>
    have object := (underway.objects marked isLeft ⟨found.2, among⟩).1
    rw [other] at object
    exact absurd object (by decide)

/-- The document after the last move is the one that the document before tells. -/
theorem Underway.finished_eq : editor.document.unkeyed = (floatedUp document).unkeyed := by
  have below : ∀ found ∈ document.root.content.elements, found ∈ document.whole.elements :=
    fun found member => by
      simp [Document.whole, elements, member]
  have inside : ∀ spot ∈ spotsIn (rootChain document) 0 document.root.content,
      spot ∈ spots document := by
    intro spot member
    unfold spots Document.whole
    by_cases object : document.root.tag.isNamed objectLabel = true
    · simp only [rootChain, object, if_true] at member
      simp [spotsIn, object, member]
    · simp only [rootChain, object, Bool.false_eq_true, if_false] at member
      simp [spotsIn, object, member]
  -- the tree with its references, and each declaration with its own
  have left := @unkeyed_midway (leftOf all) list document.root.content (rootChain document) 0
    (fun found member => underway.others marked (below found member))
    fun spot member => underway.finished marked whole (inside spot member)
  have moved : ∀ move ∈ all, (contentOf all list move.1).unkeyed =
      (replacedIn uncounted move.1.chain 0 move.1.content).unkeyed := by
    intro move member
    have standing := (List.mem_filter.1 (underway.nested move member)).1
    refine unkeyed_midway _ _ _ (fun found within => underway.others marked
      ((Content.elements_inside (spotsIn_elements standing)).subset within)) fun spot within =>
        underway.finished marked whole (spotsIn_inside _ _ _ move.1 standing spot within)
  have brought : (broughtBy all list).unkeyed =
      (forestOf ((turnsOf document).map (Spot.floated uncounted))).unkeyed := by
    unfold broughtBy
    rw [unkeyed_forestOf, unkeyed_forestOf, ← whole, List.map_map, List.map_map, List.map_map]
    refine congrArg forestOf (List.map_congr_left fun move member => ?_)
    simp only [Function.comp_apply, bareFloated, Spot.floated, moved move member]
  obtain ⟨found, first, hasKey⟩ := marked.listed
  have once : document.root.content.keys.count (some list) ≤ 1 := by
    have total := marked.once list
    unfold Document.whole at total
    rw [Content.keys_element, List.count_cons, List.count_append] at total
    omega
  have grown := @midway_modifyFirst (leftOf all) list (broughtBy all list) _ found once first hasKey
    fun found member reference isLeft => underway.objects marked isLeft ⟨found.2, below found member⟩
  have content : (midway (leftOf all) list (broughtBy all list) document.root.content).unkeyed =
      (floatedUp document).root.content.unkeyed := by
    rw [grown, unkeyed_modifyFirst, left, brought, ← unkeyed_modifyFirst, floatedUp_eq]
    unfold declared
    rw [replacedIn_whole]
    rfl
  rw [underway.document_eq, underway.midway_eq marked]
  show document.withWhole (.element (bare document.root.tag) _ .nil) = document.withWhole
    (.element (bare document.root.tag) (floatedUp document).root.content.unkeyed .nil)
  exact congrArg (fun children =>
    document.withWhole (.element (bare document.root.tag) children .nil)) content

end Finished

/-! ## The whole pass -/

theorem named_unkeyed (label : String) (content : Content) : content.unkeyed.named label =
    (content.named label).map fun found => (bare found.1, found.2.unkeyed) := by
  induction content with
  | nil => rfl
  | leaf node rest inductionHypothesis => exact inductionHypothesis
  | element tag children rest _ restHypothesis =>
    have name : (bare tag).isNamed label = tag.isNamed label := rfl
    by_cases found : tag.isNamed label = true
    · simp only [Content.unkeyed, Content.named, name, found, if_true, restHypothesis,
        List.map_cons]
    · simp only [Content.unkeyed, Content.named, name, found, Bool.false_eq_true, if_false,
        restHypothesis]

theorem objects?_unkeyed (document : Document) : document.unkeyed.objects? =
    document.objects?.map fun found => (bare found.1, found.2.unkeyed) := by
  unfold Document.objects?
  rw [show document.unkeyed.root.content = document.root.content.unkeyed from rfl, named_unkeyed,
    List.head?_map]

section Opened

variable (document : Document)

/-- A document that was opened. -/
theorem opened_whole : (Editor.ofDocument document.unkeyed).document.whole =
    (document.whole.unkeyed.keyed 0).1 := rfl

theorem opened_unkeyed :
    (Editor.ofDocument document.unkeyed).document.unkeyed = document.unkeyed := by
  have same : (Editor.ofDocument document.unkeyed).document.whole.unkeyed =
      document.whole.unkeyed := by
    rw [opened_whole, unkeyed_keyed, unkeyed_unkeyed]
  unfold Document.unkeyed at same ⊢
  rw [same]
  rfl

theorem opened_marked {found : Tag × Content} (hasList : document.objects? = some found) :
    ∃ list, (Editor.ofDocument document.unkeyed).objects? = some list ∧
      Marked (Editor.ofDocument document.unkeyed).document
        (Editor.ofDocument document.unkeyed).next list := by
  obtain ⟨next, keys⟩ := keys_keyed document.whole 0
  have isNext : (Editor.ofDocument document.unkeyed).next = document.whole.elements.length := by
    rw [show (Editor.ofDocument document.unkeyed).next = (document.whole.unkeyed.keyed 0).2 from rfl,
      next, Nat.zero_add]
  rw [← opened_whole] at keys
  have below : ∀ key ∈ (Editor.ofDocument document.unkeyed).document.whole.keys,
      ∃ number < (Editor.ofDocument document.unkeyed).next, key = some number := by
    intro key member
    rw [keys] at member
    obtain ⟨number, inRange, rfl⟩ := List.mem_map.1 member
    rw [List.mem_range'_1] at inRange
    exact ⟨number, by omega, rfl⟩
  have some_ : ((Editor.ofDocument document.unkeyed).document.objects?).isSome = true := by
    have opened := objects?_unkeyed (Editor.ofDocument document.unkeyed).document
    rw [opened_unkeyed, objects?_unkeyed, hasList] at opened
    have present := congrArg Option.isSome opened
    rw [Option.isSome_map, Option.isSome_map] at present
    exact present.symm
  obtain ⟨listed, isListed⟩ := Option.isSome_iff_exists.1 some_
  have among : listed ∈ (Editor.ofDocument document.unkeyed).document.whole.elements := by
    have member := (Content.mem_named (List.mem_of_head? isListed)).1
    unfold Document.whole
    simp [elements, member]
  obtain ⟨list, _, hasKey⟩ := below _ (List.mem_map.2 ⟨listed, among, rfl⟩)
  refine ⟨list, ?_, below, ?_, listed, isListed, hasKey⟩
  · unfold Editor.objects?
    rw [isListed]
    exact hasKey
  · rw [keys]
    exact (List.nodup_range').map fun _ _ => Option.some.inj

end Opened

/-- The declarations move one after the other to where the walk of the pass puts them. -/
theorem floatInPlace_ok {document : Document} {found : Tag × Content}
    (hasList : document.objects? = some found) :
    floatInPlace document = .ok (floatedUp document).unkeyed := by
  obtain ⟨list, isList, marked⟩ := opened_marked document hasList
  have start : Underway (Editor.ofDocument document.unkeyed).document
      (Editor.ofDocument document.unkeyed).next list [] (Editor.ofDocument document.unkeyed) := by
    refine ⟨?_, rfl, Nat.le_refl _, by simp, by simp, by simp⟩
    rw [show leftOf [] = fun _ => none from rfl, show broughtBy [] list = .nil from rfl,
      midway_none]
    rfl
  obtain ⟨later, all, moved, underway, whole⟩ := start.moveAll marked (List.nil_append _)
  unfold floatInPlace Editor.floatUp
  rw [isList]
  simp only
  rw [marked.turns_eq start, List.map_map]
  have keys : (turnsOf (Editor.ofDocument document.unkeyed).document).map
      (Prod.snd ∘ fun spot => (spot.depth, spot.key)) =
      (turnsOf (Editor.ofDocument document.unkeyed).document).map Spot.key := rfl
  rw [keys, moved]
  simp only
  rw [underway.finished_eq marked whole, ← floatedUp_unkeyed, opened_unkeyed, floatedUp_unkeyed]

theorem floatInPlace_error {document : Document} (noList : document.objects? = none) :
    floatInPlace document = .error (withoutObjects document.label) := by
  have none : (Editor.ofDocument document.unkeyed).objects? = none := by
    have opened := objects?_unkeyed (Editor.ofDocument document.unkeyed).document
    rw [opened_unkeyed, objects?_unkeyed, noList] at opened
    unfold Editor.objects?
    rw [Option.map_eq_none_iff.1 opened.symm]
    rfl
  unfold floatInPlace Editor.floatUp
  rw [none]
  rfl

/-- Both forms of the pass answer the document that the document before tells.  It is the one in
which the position of every object counts exactly where each nested declaration is inside of an
outermost object that has a name or comes first under its parent. -/
theorem floats_as_declared (document : Document) :
    (document.objects? = none →
      abstractsFloatUp document = .error (withoutObjects document.label) ∧
      floatInPlace document = .error (withoutObjects document.label)) ∧
    ∀ found, document.objects? = some found → ∃ moved, InTurn (nestedOf document) moved ∧
      abstractsFloatUp document = .ok (declared uncounted document moved) ∧
      floatInPlace document = .ok (declared uncounted document moved).unkeyed ∧
      (declared uncounted document moved).allObjects.length =
        document.allObjects.length + (nestedOf document).length ∧
      (declared id document moved = declared uncounted document moved ↔ Known document) := by
  refine ⟨fun noList => ⟨abstractsFloatUp_error noList, floatInPlace_error noList⟩,
    fun found hasList => ⟨turnsOf document, inTurn_mergeSort _, ?_, ?_, ?_, ?_⟩⟩
  · rw [abstractsFloatUp_ok hasList, floatedUp_eq]
  · rw [floatInPlace_ok hasList, floatedUp_eq]
  · rw [← floatedUp_eq, countIn_floatedUp hasList]
  · exact declared_id_iff hasList (inTurn_mergeSort _).same

/-- An object with attributes and a content, and what follows it. -/
def objectWith (attributes : List (String × String)) (content rest : Content) : Content :=
  .element (attributes.foldl (fun tag item => tag.set item.1 item.2)
    (Tag.plain objectLabel)) content rest

/-- A document with top-level objects. -/
def programOf (objects : Content) : Document :=
  ⟨"t.xmir", ⟨[], .plain "program", .element (.plain objectsLabel) objects .nil, []⟩⟩

/-- An abstract object inside of an abstract object. -/
def nestedTwice : Document :=
  programOf (objectWith [("abstract", ""), ("name", "a"), ("line", "1")]
    (objectWith [("abstract", ""), ("name", "b"), ("line", "2")]
      (objectWith [("abstract", ""), ("name", "c"), ("line", "3")] .nil .nil) .nil) .nil)

theorem nestedTwice_floats : ∃ moved, InTurn (nestedOf nestedTwice) moved ∧
    abstractsFloatUp nestedTwice = .ok (declared id nestedTwice moved) ∧
    floatInPlace nestedTwice = .ok (declared id nestedTwice moved).unkeyed := by
  obtain ⟨moved, inTurn, answer, inPlace, _, same⟩ := (floats_as_declared nestedTwice).2 _ rfl
  have known : Known nestedTwice := by decide
  rw [← same.2 known] at answer inPlace
  exact ⟨moved, inTurn, answer, inPlace⟩

/-- An abstract object inside of the second top-level object, which has no name. -/
def secondUnnamed : Document :=
  programOf (objectWith [("name", "x")] .nil
    (objectWith [] (objectWith [("abstract", ""), ("name", "f"), ("line", "1")] .nil .nil) .nil))

/-- The position of a top-level object without a name is lost. -/
theorem secondUnnamed_misnamed : ¬∃ moved, InTurn (nestedOf secondUnnamed) moved ∧
    abstractsFloatUp secondUnnamed = .ok (declared id secondUnnamed moved) := by
  rintro ⟨moved, inTurn, answer⟩
  have only : ∃ spot, nestedOf secondUnnamed = [spot] := ⟨_, rfl⟩
  obtain ⟨spot, isOnly⟩ := only
  have order : turnsOf secondUnnamed = moved := by
    have turns := (inTurn_mergeSort (nestedOf secondUnnamed)).same
    have same := inTurn.same
    rw [isOnly] at same turns
    unfold turnsOf
    rw [List.perm_singleton.1 same, isOnly, List.perm_singleton.1 turns]
  rw [abstractsFloatUp_ok (show secondUnnamed.objects? = some _ from rfl), floatedUp_eq, order]
    at answer
  have same := Except.ok.inj answer
  have known := (declared_id_iff (show secondUnnamed.objects? = some _ from rfl) inTurn.same).1
    same.symm
  revert known
  decide

end EoAssembly.Pass
