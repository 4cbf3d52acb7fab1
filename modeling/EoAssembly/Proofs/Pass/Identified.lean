import EoAssembly.Proofs.Pass.Midway
import EoAssembly.Proofs.Pass.Repeated

/-!
Contract: when declarations that moved up can be told apart.

Where names under one parent differ and no name holds the mark between the names of a chain, a full
name leads from the outermost object down to one declaration.  What it does not tell is the
outermost object itself, when several have the same own name: an object without a name counts as
the first one there, wherever it stands.

Owns `Distinguished`, the search for a full name, and the exact law of both: the moved declarations
have different names, and each reference left behind finds its own, if and only if the full names
differ.

Does not own: the moves, or the search as such.
-/

namespace EoAssembly

open Pass (ScopeLevel Declared declaredBy? lineIn? resolved)
open Document (childObjects)

/-- The names of the objects right under a parent. -/
def Document.namesUnder (content : Xml.Content) : List String :=
  (childObjects content).filterMap fun object => object.1.get? "name"

namespace Pass

open Xml (Tag Content)

/-- A document whose names and bases are free of both marks of full names, where the objects under
one parent have different names, and with a line for every object. -/
structure Distinguished (document : Document) : Prop where
  free : ∀ tag ∈ document.objectTags, ∀ key ∈ ["name", "base"], ∀ value ∈ tag.get? key,
    Text.holds scopeMark value = false ∧ Text.holds 'α' value = false
  apart : ∀ element ∈ document.whole.elements, (Document.namesUnder element.2).Nodup
  numbered : Numbered document

/-! ## Own names -/

section OwnNames

variable {content : Content} {tag : Tag} {first second : Nat}

theorem position_inj (same : s!"α{first}" = s!"α{second}") : first = second := by
  have digits := congrArg String.toList same
  simp only [String.toList_append, List.append_cancel_left_eq, Nat.toString_eq_ofList_toDigits,
    String.toList_ofList] at digits
  have values := congrArg (fun digits => Nat.ofDigitChars 10 digits 0) digits
  simpa only [Nat.ofDigitChars_ten_toDigits] using values

theorem holds_position (index : Nat) : Text.holds 'α' s!"α{index}" = true := by
  simp only [Text.holds, List.contains_eq_mem, decide_eq_true_eq, String.toList_append,
    List.mem_append]
  exact Or.inl (by decide)

theorem free_ownName (free : ∀ name ∈ tag.get? "name", Text.holds scopeMark name = false)
    (index : Nat) : Text.holds scopeMark (ownName tag index) = false := by
  unfold ownName
  cases named : tag.get? "name" with
  | some name => exact free name named
  | none =>
    simp only [Option.getD_none, Text.holds, List.contains_eq_mem, decide_eq_false_iff_not,
      String.toList_append, List.mem_append, Nat.toString_eq_ofList_toDigits, String.toList_ofList]
    rintro (mark | digit)
    · exact absurd mark (by decide)
    · exact absurd (Nat.isDigit_of_mem_toDigits (by omega) (by omega) digit) (by decide)

/-- Under one parent an own name tells the position of its object. -/
theorem index_of_ownName (apart : (Document.namesUnder content).Nodup)
    (free : ∀ child ∈ childObjects content, ∀ name ∈ child.1.get? "name",
      Text.holds 'α' name = false)
    {one other : Tag × Content} (atFirst : (childObjects content)[first]? = some one)
    (atSecond : (childObjects content)[second]? = some other)
    (same : ownName one.1 first = ownName other.1 second) : first = second := by
  have unmarked : ∀ child ∈ childObjects content, ∀ name ∈ child.1.get? "name", ∀ index : Nat,
      name ≠ s!"α{index}" := by
    intro child member name named index isPosition
    have marked := holds_position index
    rw [← isPosition, free child member name named] at marked
    exact absurd marked (by decide)
  unfold ownName at same
  cases namedFirst : one.1.get? "name" with
  | none =>
    cases namedSecond : other.1.get? "name" with
    | none =>
      rw [namedFirst, namedSecond] at same
      exact position_inj same
    | some name =>
      rw [namedFirst, namedSecond] at same
      exact absurd same.symm (unmarked other (List.mem_of_getElem? atSecond) name namedSecond first)
  | some name =>
    cases namedSecond : other.1.get? "name" with
    | none =>
      rw [namedFirst, namedSecond] at same
      exact absurd same (unmarked one (List.mem_of_getElem? atFirst) name namedFirst second)
    | some sameName =>
      rw [namedFirst, namedSecond] at same
      unfold Document.namesUnder at apart
      have different := List.pairwise_iff_getElem.1 (List.pairwise_filterMap.1 apart)
      obtain ⟨inFirst, isOne⟩ := List.getElem?_eq_some_iff.1 atFirst
      obtain ⟨inSecond, isOther⟩ := List.getElem?_eq_some_iff.1 atSecond
      rcases Nat.lt_trichotomy first second with less | equal | more
      · have apartHere := different first second inFirst inSecond less
        rw [isOne, isOther] at apartHere
        exact absurd same (apartHere name namedFirst sameName namedSecond)
      · exact equal
      · have apartHere := different second first inSecond inFirst more
        rw [isOne, isOther] at apartHere
        exact absurd same.symm (apartHere sameName namedSecond name namedFirst)

end OwnNames

/-! ## Full names -/

section FullNames

variable {document : Document}

theorem Distinguished.free_name (told : Distinguished document) {tag : Tag}
    (member : tag ∈ document.objectTags) {name : String} (named : tag.get? "name" = some name) :
    Text.holds scopeMark name = false ∧ Text.holds 'α' name = false :=
  told.free tag member "name" (by simp) name named

theorem Distinguished.free_base (told : Distinguished document) {tag : Tag}
    (member : tag ∈ document.objectTags) {base : String} (based : tag.get? "base" = some base) :
    Text.holds scopeMark base = false :=
  (told.free tag member "base" (by simp) base based).1

theorem mem_objectTags_chain {spot : Spot} (member : spot ∈ spots document)
    {object : Tag × Nat} (inChain : object ∈ spot.chain) : object.1 ∈ document.objectTags := by
  rcases spotsIn_chain document.whole [] 0 spot member object inChain with outer | inside
  · exact absurd outer (by simp)
  · exact inside

theorem mem_objectTags_spot {spot : Spot} (member : spot ∈ spots document) :
    spot.tag ∈ document.objectTags :=
  mem_objectTags_chain member (List.mem_append_right spot.around (List.mem_singleton.2 rfl))

/-- No name along a chain holds the mark. -/
theorem Distinguished.free_names (told : Distinguished document) {spot : Spot}
    (member : spot ∈ spots document) :
    ∀ name ∈ namesOf uncounted spot.chain, Text.holds scopeMark name = false := by
  have free : ∀ object ∈ spot.chain, ∀ name ∈ object.1.get? "name",
      Text.holds scopeMark name = false := by
    intro object inChain name named
    exact (told.free_name (mem_objectTags_chain member inChain) named).1
  generalize spot.chain = chain at free
  cases chain with
  | nil => simp [namesOf]
  | cons outer inner =>
    intro name inNames
    simp only [namesOf, List.mem_cons, List.mem_map] at inNames
    rcases inNames with isOuter | ⟨object, among, same⟩
    · rw [isOuter]
      exact free_ownName (free outer List.mem_cons_self) _
    · rw [← same]
      exact free_ownName (free object (List.mem_cons_of_mem outer among)) _

/-- A full name tells the names that it joins. -/
theorem namesOf_of_fullName {one other : List (Tag × Nat)} (some_ : one ≠ [])
    (someOther : other ≠ [])
    (free : ∀ name ∈ namesOf uncounted one, Text.holds scopeMark name = false)
    (freeOther : ∀ name ∈ namesOf uncounted other, Text.holds scopeMark name = false)
    (same : fullName uncounted one = fullName uncounted other) :
    namesOf uncounted one = namesOf uncounted other := by
  have parted : ∀ chain : List (Tag × Nat), chain ≠ [] →
      (∀ name ∈ namesOf uncounted chain, Text.holds scopeMark name = false) →
      Text.pieces (· == scopeMark) (fullName uncounted chain).toList =
        (namesOf uncounted chain).map String.toList := by
    intro chain someHere freeHere
    unfold fullName Text.joinAll
    rw [String.toList_ofList]
    apply Text.pieces_joined
    · intro empty
      have isEmpty := @namesOf_isEmpty uncounted chain
      rw [List.map_eq_nil_iff.1 empty] at isEmpty
      exact someHere (List.isEmpty_iff.1 isEmpty.symm)
    · intro part among c within
      obtain ⟨name, member, isPart⟩ := List.mem_map.1 among
      have holds := freeHere name member
      simp only [Text.holds, List.contains_eq_mem, decide_eq_false_iff_not, isPart] at holds
      rw [beq_eq_false_iff_ne]
      intro isMark
      exact holds (isMark ▸ within)
  have pieces := congrArg (fun text => Text.pieces (· == scopeMark) text.toList) same
  simp only [parted one some_ free, parted other someOther freeOther] at pieces
  exact List.map_injective_iff.2 (fun _ _ => String.toList_injective) pieces

/-- The full name of what is inside of another object holds the mark. -/
theorem holds_fullName {spot : Spot} (nested : spot.nested = true) :
    Text.holds scopeMark (fullName uncounted spot.chain) = true := by
  unfold Spot.nested at nested
  simp only [Bool.and_eq_true, Bool.not_eq_true', List.isEmpty_eq_false_iff] at nested
  obtain ⟨outer, inner, around⟩ := List.exists_cons_of_ne_nil nested.1
  unfold fullName Spot.chain
  rw [around]
  simp only [List.cons_append, namesOf, Text.holds, List.contains_eq_mem, decide_eq_true_eq]
  rw [joinAll_cons _ _ (by simp)]
  simp

/-! ## From full names to declarations -/

/-- In a distinguished document an object is known by its line. -/
theorem Distinguished.object_unique (told : Distinguished document) {one other : Tag × Content}
    (first : one ∈ document.allObjects) (second : other ∈ document.allObjects)
    (sameLine : one.1.get? "line" = other.1.get? "line") : one = other := by
  have lines := told.numbered.apart
  unfold Document.objectTags at lines
  rw [List.map_map] at lines
  exact List.inj_on_of_nodup_map lines first second sameLine

theorem spot_object {spot : Spot} (member : spot ∈ spots document) :
    (spot.tag, spot.content) ∈ document.allObjects := by
  unfold Document.allObjects
  rw [← spotsIn_objects document.whole [] 0]
  exact List.mem_map.2 ⟨spot, member, rfl⟩

/-- What stands under one parent with one own name is one object. -/
theorem Distinguished.child_unique (told : Distinguished document) {parent : Tag × Content}
    (member : parent ∈ document.whole.elements) {one other : Tag × Content} {first second : Nat}
    (atFirst : (childObjects parent.2)[first]? = some one)
    (atSecond : (childObjects parent.2)[second]? = some other)
    (same : ownName one.1 first = ownName other.1 second) : one = other := by
  have free : ∀ child ∈ childObjects parent.2, ∀ name ∈ child.1.get? "name",
      Text.holds 'α' name = false := by
    intro child among name named
    obtain ⟨inElements, isObject, _⟩ := Content.mem_named among
    have inWhole := (Content.elements_inside member).subset inElements
    have listed : child ∈ document.allObjects := by
      unfold Document.allObjects
      rw [Content.allNamed_eq]
      exact List.mem_filter.2 ⟨inWhole, isObject⟩
    exact (told.free_name (List.mem_map.2 ⟨child, listed, rfl⟩) named).2
  have sameIndex := index_of_ownName (told.apart parent member) free atFirst atSecond same
  rw [sameIndex, atSecond] at atFirst
  exact (Option.some.inj atFirst).symm

theorem length_names (spot : Spot) :
    (namesOf uncounted spot.chain).length = spot.depth + 1 := by
  rw [namesOf_length]
  simp [Spot.chain, Spot.depth]

theorem namesOf_chain {spot : Spot} (inside : spot.around ≠ []) :
    namesOf uncounted spot.chain =
      namesOf uncounted spot.around ++ [ownName spot.tag spot.index] := by
  unfold Spot.chain
  rw [namesOf_concat]
  simp [inside]

theorem chain_ne_nil (spot : Spot) : spot.chain ≠ [] := by simp [Spot.chain]

theorem head_chain {spot parent : Spot} (under : spot.around = parent.chain) :
    spot.chain.head? = parent.chain.head? := by
  have split : spot.chain = parent.chain ++ [(spot.tag, spot.index)] := by
    rw [← under]
    rfl
  rw [split]
  exact List.head?_append_of_ne_nil _ (chain_ne_nil parent)

/-- What is inside of another object stands right under the last object around it. -/
theorem exists_parent {spot : Spot} (member : spot ∈ spots document) (inside : spot.around ≠ []) :
    ∃ parent ∈ spots document, spot.around = parent.chain ∧ spot.depth = parent.depth + 1 ∧
      (childObjects parent.content)[spot.index]? = some (spot.tag, spot.content) := by
  rcases spotsIn_parent document.whole [] 0 spot member with
    ⟨alone, _⟩ | ⟨alone, _⟩ | ⟨parent, among, under, place⟩
  · exact absurd alone inside
  · exact absurd alone inside
  · refine ⟨parent, among, under, ?_, place⟩
    unfold Spot.depth
    rw [under]
    simp [Spot.chain]

/-- Objects inside of one outermost object with the same names along their chains are the same. -/
theorem Distinguished.line_of_names (told : Distinguished document) (depth : Nat) :
    ∀ first ∈ spots document, ∀ second ∈ spots document, first.depth = depth →
      namesOf uncounted first.chain = namesOf uncounted second.chain →
      (∀ one ∈ first.chain.head?, ∀ other ∈ second.chain.head?,
        one.1.get? "line" = other.1.get? "line") →
      first.tag.get? "line" = second.tag.get? "line" := by
  induction depth with
  | zero =>
    intro first inFirst second inSecond isDepth sameNames sameHead
    have lengths := congrArg List.length sameNames
    rw [length_names, length_names, isDepth] at lengths
    have alone : first.around = [] := List.length_eq_zero_iff.1 isDepth
    have aloneToo : second.around = [] := List.length_eq_zero_iff.1 (Nat.succ.inj lengths).symm
    exact sameHead (first.tag, first.index) (by simp [Spot.chain, alone])
      (second.tag, second.index) (by simp [Spot.chain, aloneToo])
  | succ depth inductionHypothesis =>
    intro first inFirst second inSecond isDepth sameNames sameHead
    have lengths := congrArg List.length sameNames
    rw [length_names, length_names, isDepth] at lengths
    have inside : first.around ≠ [] := List.length_pos_iff.1 (by unfold Spot.depth at isDepth; omega)
    have insideToo : second.around ≠ [] :=
      List.length_pos_iff.1 (by unfold Spot.depth at lengths; omega)
    obtain ⟨one, inOne, underOne, depthOne, placeOne⟩ := exists_parent inFirst inside
    obtain ⟨other, inOther, underOther, _, placeOther⟩ := exists_parent inSecond insideToo
    -- the names of the parents agree, and so do the last ones
    rw [namesOf_chain inside, namesOf_chain insideToo, underOne, underOther] at sameNames
    obtain ⟨sameOuter, sameOwn⟩ := List.append_inj' sameNames rfl
    rw [head_chain underOne, head_chain underOther] at sameHead
    have sameLine := inductionHypothesis one inOne other inOther (by omega) sameOuter sameHead
    have sameParent := told.object_unique (spot_object inOne) (spot_object inOther) sameLine
    rw [(Prod.mk.inj sameParent).2] at placeOne
    have equal := told.child_unique (spotsIn_elements inOther) placeOne placeOther
      (List.singleton_inj.1 sameOwn)
    rw [(Prod.mk.inj equal).1]

/-! ## What identifies declarations -/

/-- The nested declarations have different full names. -/
def FullNamesApart (document : Document) : Prop :=
  ((nestedOf document).map fun spot => fullName uncounted spot.chain).Nodup

/-- The outermost objects around nested declarations have different own names, where one without a
name counts as the first one. -/
def OutermostApart (document : Document) : Prop :=
  ∀ first ∈ nestedOf document, ∀ second ∈ nestedOf document,
    ∀ one ∈ first.around.head?, ∀ other ∈ second.around.head?,
      ownName one.1 0 = ownName other.1 0 → one.1.get? "line" = other.1.get? "line"

instance : Decidable (FullNamesApart document) :=
  inferInstanceAs (Decidable (List.Nodup _))

instance : Decidable (OutermostApart document) :=
  inferInstanceAs (Decidable (∀ first ∈ nestedOf document, ∀ second ∈ nestedOf document,
    ∀ one ∈ first.around.head?, ∀ other ∈ second.around.head?,
      ownName one.1 0 = ownName other.1 0 → one.1.get? "line" = other.1.get? "line"))

theorem mem_nestedOf {spot : Spot} :
    spot ∈ nestedOf document ↔ spot ∈ spots document ∧ spot.nested = true :=
  List.mem_filter

theorem Distinguished.lines_nested (told : Distinguished document) :
    ((nestedOf document).map fun spot => spot.tag.get? "line").Nodup := by
  have lines : ((spots document).map fun spot => spot.tag.get? "line").Nodup := by
    have all := told.numbered.apart
    unfold Document.objectTags Document.allObjects at all
    rw [← spotsIn_objects document.whole [] 0, List.map_map, List.map_map] at all
    exact all
  exact lines.sublist (List.filter_sublist.map _)

/-- Where full names tell lines apart, they differ. -/
theorem Distinguished.fullNamesApart (told : Distinguished document)
    (tells : ∀ first ∈ nestedOf document, ∀ second ∈ nestedOf document,
      fullName uncounted first.chain = fullName uncounted second.chain →
      first.tag.get? "line" = second.tag.get? "line") : FullNamesApart document := by
  unfold FullNamesApart
  apply List.pairwise_map.2
  refine List.Pairwise.imp_of_mem ?_ (List.pairwise_map.1 told.lines_nested)
  intro first second inFirst inSecond different same
  exact different (tells first inFirst second inSecond same)

theorem Distinguished.fullNamesApart_of_outermost (told : Distinguished document)
    (outermost : OutermostApart document) : FullNamesApart document := by
  apply told.fullNamesApart
  intro first inFirst second inSecond same
  obtain ⟨memberFirst, nestedFirst⟩ := mem_nestedOf.1 inFirst
  obtain ⟨memberSecond, nestedSecond⟩ := mem_nestedOf.1 inSecond
  have sameNames := namesOf_of_fullName (chain_ne_nil first) (chain_ne_nil second)
    (told.free_names memberFirst) (told.free_names memberSecond) same
  apply told.line_of_names first.depth first memberFirst second memberSecond rfl sameNames
  have outer : ∀ {spot : Spot}, spot.nested = true → ∃ object inner,
      spot.around = object :: inner := by
    intro spot nested
    unfold Spot.nested at nested
    simp only [Bool.and_eq_true, Bool.not_eq_true', List.isEmpty_eq_false_iff] at nested
    exact List.exists_cons_of_ne_nil nested.1
  obtain ⟨one, innerOne, aroundOne⟩ := outer nestedFirst
  obtain ⟨other, innerOther, aroundOther⟩ := outer nestedSecond
  have sameOwn : ownName one.1 0 = ownName other.1 0 := by
    unfold Spot.chain at sameNames
    rw [aroundOne, aroundOther] at sameNames
    exact (List.cons.inj sameNames).1
  have sameLine := outermost first inFirst second inSecond one (by simp [aroundOne]) other
    (by simp [aroundOther]) sameOwn
  simpa [Spot.chain, aroundOne, aroundOther] using sameLine

end FullNames

/-! ## The search in a level -/

section Levels

variable {base : String} {level : ScopeLevel}

theorem lineIn?_eq_none (missing : ∀ line, some ⟨base, line⟩ ∉ level) :
    lineIn? base level = none := by
  cases found : lineIn? base level with
  | none => rfl
  | some line => exact absurd (mem_of_lineIn? found) (missing line)

/-- An object that does not declare a name is not missed in its search. -/
theorem lineIn?_withoutObject {index : Nat}
    (other : ∀ line, level[index]? ≠ some (some ⟨base, line⟩)) :
    lineIn? base (withoutObject level index) = lineIn? base level := by
  unfold withoutObject
  induction level generalizing index with
  | nil => rfl
  | cons entry rest inductionHypothesis =>
    cases index with
    | zero =>
      cases entry with
      | none => rfl
      | some declared =>
        have different : declared.name ≠ base := by
          intro same
          exact other declared.line (by simp [← same])
        simp [lineIn?, different]
    | succ before =>
      have later : lineIn? base (rest.eraseIdx before) = lineIn? base rest :=
        inductionHypothesis fun line => by simpa using other line
      cases entry with
      | none => simpa [lineIn?] using later
      | some declared => simp [lineIn?, later]

/-- Among moved declarations with lines the first one with a full name is found. -/
theorem lineIn?_moved (moved : List Spot)
    (lined : ∀ spot ∈ moved, spot.tag.has "line" = true) :
    lineIn? base (moved.map fun spot => declaredBy? (spot.floated uncounted).tag) =
      (moved.find? fun spot => fullName uncounted spot.chain == base).bind fun spot =>
        spot.tag.get? "line" := by
  induction moved with
  | nil => rfl
  | cons spot rest inductionHypothesis =>
    have later := inductionHypothesis fun other among => lined other (List.mem_cons_of_mem spot among)
    obtain ⟨line, isLine⟩ := Option.isSome_iff_exists.1 (lined spot List.mem_cons_self)
    have declares : declaredBy? (spot.floated uncounted).tag =
        some ⟨fullName uncounted spot.chain, line⟩ := by
      apply declaredBy?_eq_some.2
      refine ⟨Tag.get?_set_same _ _ _, ?_⟩
      rw [← isLine]
      exact Tag.get?_set_other _ _ (by decide)
    rw [List.map_cons, declares, List.find?_cons]
    by_cases same : fullName uncounted spot.chain = base
    · simp [lineIn?, same, isLine]
    · have apart : (fullName uncounted spot.chain == base) = false := beq_eq_false_iff_ne.2 same
      simp [lineIn?, same, apart, later]

end Levels

/-! ## References left behind -/

section Left

variable {document : Document} {found : Tag × Content} {after : Placement} {base : String}

/-- A document after its nested declarations moved up and its references were searched. -/
def searched (document : Document) : Document := addRefs (removeLevels (floatedUp document))

/-- What a nested declaration left behind has its full name as base, and its line. -/
def LeftBehind (spot : Spot) (tag : Tag) : Prop :=
  tag.get? "base" = some (fullName uncounted spot.chain) ∧
    tag.get? "line" = spot.tag.get? "line"

instance (spot : Spot) (tag : Tag) : Decidable (LeftBehind spot tag) :=
  inferInstanceAs (Decidable (_ ∧ _))

theorem Distinguished.free_inside (told : Distinguished document)
    (hasList : document.objects? = some found) (member : after ∈ (floatedUp document).placements)
    (inside : after.around ≠ []) {name : String} (named : after.tag.get? "name" = some name) :
    Text.holds scopeMark name = false := by
  rcases origin_floatedUp hasList member with
    ⟨before, among, ⟨_, kept⟩ | ⟨_, full, reference⟩⟩ | ⟨position, declaration, _, top⟩
  · rw [kept] at named
    exact (told.free_name (Document.mem_objectTags.2 ⟨before, among, rfl⟩) named).1
  · rw [reference, get?_referenceTo] at named
    exact (told.free_name (Document.mem_objectTags.2 ⟨before, among, rfl⟩) (by simpa using named)).1
  · rw [top] at inside
    exact absurd rfl inside

/-- Nothing but references left behind have a base with the mark. -/
theorem Distinguished.reference_of_base (told : Distinguished document)
    (hasList : document.objects? = some found) (member : after ∈ (floatedUp document).placements)
    (based : after.tag.get? "base" = some base) (marked : Text.holds scopeMark base = true) :
    ∃ before ∈ document.placements, after.tag = referenceTo base before.tag := by
  rcases origin_floatedUp hasList member with
    ⟨before, among, ⟨_, kept⟩ | ⟨_, full, reference⟩⟩ | ⟨position, declaration, standsAt, top⟩
  · rw [kept] at based
    rw [told.free_base (Document.mem_objectTags.2 ⟨before, among, rfl⟩) based] at marked
    exact absurd marked (by decide)
  · have isBase : full = base := by
      rw [reference, get?_referenceTo] at based
      simpa using based
    rw [← isBase]
    exact ⟨before, among, reference⟩
  · obtain ⟨before, among, _, outer, _, renamed⟩ :=
      floated_origin document declaration (List.mem_of_getElem? standsAt)
    rw [top, renamed] at based
    rw [Tag.get?_set_other _ _ (by decide)] at based
    rw [told.free_base (Document.mem_objectTags.2 ⟨before, among, rfl⟩) based] at marked
    exact absurd marked (by decide)

/-- A full name is searched among the top-level objects, however deep its reference stands. -/
theorem Distinguished.resolution_of_full (told : Distinguished document)
    (hasList : document.objects? = some found) (member : after ∈ (floatedUp document).placements)
    (based : after.tag.get? "base" = some base) (marked : Text.holds scopeMark base = true) :
    after.resolution (floatedUp document).topLevel =
      lineIn? base (floatedUp document).topLevel := by
  have near : after.nearResolution = none := by
    cases search : after.nearResolution with
    | none => rfl
    | some line =>
      obtain ⟨declaring, place, inside, declares⟩ := declared_near member based search
      rw [told.free_inside hasList place inside (declaredBy?_eq_some.1 declares).1] at marked
      exact absurd marked (by decide)
  rw [Placement.resolution_of_base _ based, near, Option.none_or]
  unfold Placement.topLevelFor
  split
  · next isTop =>
    apply lineIn?_withoutObject
    intro line entry
    rw [(Document.placements_atTop member isTop).2] at entry
    obtain ⟨before, among, reference⟩ := told.reference_of_base hasList member based marked
    have named := (declaredBy?_eq_some.1 (Option.some.inj entry)).1
    rw [reference, get?_referenceTo] at named
    rw [(told.free_name (Document.mem_objectTags.2 ⟨before, among, rfl⟩)
      (by simpa using named)).1] at marked
    exact absurd marked (by decide)
  · rfl

/-- The search finds the first of the moved declarations with a full name. -/
theorem Distinguished.search_full (told : Distinguished document)
    (hasList : document.objects? = some found) (marked : Text.holds scopeMark base = true) :
    lineIn? base (floatedUp document).topLevel =
      ((turnsOf document).find? fun spot => fullName uncounted spot.chain == base).bind fun spot =>
        spot.tag.get? "line" := by
  have old : lineIn? base document.topLevel = none := by
    apply lineIn?_eq_none
    intro line listed
    obtain ⟨declaring, place, _, declares⟩ := Document.mem_topLevel listed
    rw [(told.free_name (Document.mem_objectTags.2 ⟨declaring, place, rfl⟩)
      (declaredBy?_eq_some.1 declares).1).1] at marked
    exact absurd marked (by decide)
  have moved : deepestFirst (liftedContent document).2 =
      (turnsOf document).map (Spot.floated uncounted) := by
    rw [liftedContent_eq]
    exact deepestFirst_map _
  rw [topLevel_floatedUp hasList, lineIn?_append, old, Option.none_or, moved, List.map_map]
  apply lineIn?_moved
  intro spot member
  have nested := (List.mergeSort_perm _ _).subset member
  exact told.numbered.lined _ (mem_objectTags_spot (mem_nestedOf.1 nested).1)

/-- What the search makes of a reference left behind. -/
theorem Distinguished.ref_left (told : Distinguished document)
    (hasList : document.objects? = some found) {spot : Spot} (nested : spot.nested = true)
    {tag : Tag} (member : tag ∈ (searched document).objectTags) (left : LeftBehind spot tag) :
    tag.get? "ref" =
      ((turnsOf document).find? fun other =>
        fullName uncounted other.chain == fullName uncounted spot.chain).bind fun other =>
          other.tag.get? "line" := by
  obtain ⟨result, place, isTag⟩ := Document.mem_objectTags.1 member
  unfold searched at place
  rw [placements_addRefs] at place
  obtain ⟨bare, among, isResult⟩ := List.mem_map.1 place
  have levels := Document.placements_mapObjects keepsPlace_removeLevel (floatedUp document)
  have top := Document.topLevel_mapObjects keepsPlace_removeLevel (floatedUp document)
  unfold removeLevels strip at among isResult
  rw [levels] at among
  rw [top] at isResult
  obtain ⟨after, stands, isBare⟩ := List.mem_map.1 among
  have marked := holds_fullName nested
  have based : after.tag.get? "base" = some (fullName uncounted spot.chain) := by
    rw [← left.1, ← isTag, ← isResult]
    unfold Placement.resolve
    rw [get?_resolved_other _ _ (by decide), ← isBare]
    exact (Tag.get?_remove_other after.tag (by decide)).symm
  obtain ⟨before, _, reference⟩ := told.reference_of_base hasList stands based marked
  have unresolved : bare.tag.get? "ref" = none := by
    rw [← isBare]
    unfold Placement.mapTag
    rw [Tag.get?_remove_other after.tag (by decide), reference, get?_referenceTo]
    simp
  rw [← told.search_full hasList marked, ← told.resolution_of_full hasList stands based marked,
    ← resolution_unmarked after, ← isTag, ← isResult]
  unfold Placement.resolve
  rw [get?_resolved_ref unresolved, ← isBare]
  rfl

/-- Every nested declaration of a forest leaves a reference. -/
theorem reference_placed (content : Content) (chain : List (Tag × Nat))
    (around : List Enclosing) (sameEnd : chain.isEmpty = around.isEmpty)
    (atTop awaited : Bool) (index : Nat) :
    ∀ spot ∈ spotsIn chain index content, spot.nested = true →
      ∃ after ∈ placementsLifted (namesOf uncounted chain) around atTop awaited index content,
        after.tag = referenceTo (fullName uncounted spot.chain) spot.tag := by
  induction content generalizing chain around atTop awaited index with
  | nil => simp [spotsIn]
  | leaf node rest inductionHypothesis =>
    exact inductionHypothesis chain around sameEnd atTop awaited index
  | element tag children rest innerHypothesis restHypothesis =>
    intro spot member nested
    have sameNames : (namesOf uncounted chain).isEmpty = around.isEmpty := by
      rw [namesOf_isEmpty, sameEnd]
    by_cases object : tag.isNamed objectLabel = true
    · have own : namesOf uncounted (chain ++ [(tag, index)]) = namesOf uncounted chain ++
          [ownName tag (if (namesOf uncounted chain).isEmpty then 0 else index)] := by
        rw [namesOf_concat, namesOf_isEmpty]
      have inner := innerHypothesis (chain ++ [(tag, index)])
        (Document.enclosingOf tag children :: around) (by simp) false false 0 spot
      have later := restHypothesis chain around sameEnd atTop awaited (index + 1) spot
      rw [own] at inner
      simp only [spotsIn, object, if_true, List.mem_cons, List.mem_append] at member
      cases moved : !around.isEmpty && tag.has "abstract" with
      | true =>
        simp only [mem_placementsLifted_moved object sameNames moved]
        rcases member with here | inside | behind
        · refine ⟨_, Or.inl rfl, ?_⟩
          rw [here, ← own]
          rfl
        · obtain ⟨after, place, isReference⟩ := inner inside nested
          exact ⟨after, Or.inr (Or.inl place), isReference⟩
        · obtain ⟨after, place, isReference⟩ := later behind nested
          exact ⟨after, Or.inr (Or.inr place), isReference⟩
      | false =>
        simp only [mem_placementsLifted_stays object sameNames moved]
        rcases member with here | inside | behind
        · rw [here] at nested
          unfold Spot.nested at nested
          rw [sameEnd, moved] at nested
          exact absurd nested (by decide)
        · obtain ⟨after, place, isReference⟩ := inner inside nested
          exact ⟨after, Or.inr (Or.inl place), isReference⟩
        · obtain ⟨after, place, isReference⟩ := later behind nested
          exact ⟨after, Or.inr (Or.inr place), isReference⟩
    · simp only [spotsIn, object, Bool.false_eq_true, if_false, List.mem_append] at member
      simp only [mem_placementsLifted_other object]
      rcases member with inside | behind
      · obtain ⟨after, place, isReference⟩ := innerHypothesis [] [] rfl _ false 0 spot inside nested
        exact ⟨after, Or.inl place, isReference⟩
      · obtain ⟨after, place, isReference⟩ :=
          restHypothesis chain around sameEnd atTop _ index spot behind nested
        exact ⟨after, Or.inr place, isReference⟩

theorem reference_floatedUp (hasList : document.objects? = some found) {spot : Spot}
    (member : spot ∈ nestedOf document) :
    referenceTo (fullName uncounted spot.chain) spot.tag ∈ (floatedUp document).objectTags := by
  rw [nestedOf_eq] at member
  obtain ⟨among, nested⟩ := List.mem_filter.1 member
  have sameEnd : (rootChain document).isEmpty = document.aroundRoot.isEmpty := by
    unfold rootChain Document.aroundRoot
    split <;> rfl
  obtain ⟨after, place, isReference⟩ := reference_placed document.root.content
    (rootChain document) document.aroundRoot sameEnd false true 0 spot among nested
  rw [namesOf_rootChain, mem_placementsLifted, keptAround_aroundRoot] at place
  apply Document.mem_objectTags.2
  refine ⟨after, ?_, isReference⟩
  apply (mem_placements_floatedUp hasList after).2
  rcases place with left | inside
  · exact Or.inr (Or.inl left)
  · exact Or.inr (Or.inr (Or.inr inside))

/-- Every nested declaration left a reference behind. -/
theorem left_searched (hasList : document.objects? = some found) {spot : Spot}
    (member : spot ∈ nestedOf document) :
    ∃ tag ∈ (searched document).objectTags, LeftBehind spot tag := by
  obtain ⟨after, stands, isReference⟩ :=
    Document.mem_objectTags.1 (reference_floatedUp hasList member)
  have levels := Document.placements_mapObjects keepsPlace_removeLevel (floatedUp document)
  have among : (after.mapTag fun tag => tag.remove "level") ∈
      (removeLevels (floatedUp document)).placements := by
    unfold removeLevels strip
    rw [levels]
    exact List.mem_map.2 ⟨after, stands, rfl⟩
  have place : ((after.mapTag fun tag => tag.remove "level").resolve
      (removeLevels (floatedUp document)).topLevel) ∈ (searched document).placements := by
    unfold searched
    rw [placements_addRefs]
    exact List.mem_map.2 ⟨_, among, rfl⟩
  have kept : ∀ key, key ≠ "ref" → key ≠ "level" →
      ((after.mapTag fun tag => tag.remove "level").resolve
        (removeLevels (floatedUp document)).topLevel).tag.get? key =
      (referenceTo (fullName uncounted spot.chain) spot.tag).get? key := by
    intro key notRef notLevel
    unfold Placement.resolve Placement.mapTag
    rw [get?_resolved_other _ _ notRef, Tag.get?_remove_other _ notLevel.symm, isReference]
  refine ⟨_, Document.mem_objectTags.2 ⟨_, place, rfl⟩, ?_, ?_⟩
  · rw [kept "base" (by decide) (by decide), get?_referenceTo]
    simp
  · rw [kept "line" (by decide) (by decide), get?_referenceTo]
    simp

end Left

/-! ## The law -/

/-- The named top-level objects of a document have different names. -/
def TopApart (document : Document) : Prop :=
  (document.topObjects.filterMap fun object => object.1.get? "name").Nodup

/-- Each nested declaration left a reference behind, which carries the line of its declaration. -/
def ReferencesFound (document : Document) : Prop :=
  ∀ spot ∈ nestedOf document,
    (∃ tag ∈ (searched document).objectTags, LeftBehind spot tag) ∧
    ∀ tag ∈ (searched document).objectTags, LeftBehind spot tag →
      tag.get? "ref" = spot.tag.get? "line"

section Law

variable {document : Document} {found : Tag × Content}

theorem turnsOf_perm (document : Document) : (turnsOf document).Perm (nestedOf document) :=
  List.mergeSort_perm _ _

theorem Distinguished.topNames_nodup (told : Distinguished document)
    (hasList : document.objects? = some found) :
    (document.topObjects.filterMap fun object => object.1.get? "name").Nodup := by
  have listed : found ∈ document.whole.elements := by
    have first := hasList
    unfold Document.objects? at first
    have inContent := (Content.mem_named (List.mem_of_mem_head? first)).1
    simp [Document.whole, Content.elements, inContent]
  have apart := told.apart found listed
  unfold Document.namesUnder at apart
  unfold Document.topObjects
  rw [hasList]
  exact apart

theorem Distinguished.topApart_iff (told : Distinguished document)
    (hasList : document.objects? = some found) :
    TopApart (floatedUp document) ↔ FullNamesApart document := by
  have names : ((floatedUp document).topObjects.filterMap fun object => object.1.get? "name") =
      (document.topObjects.filterMap fun object => object.1.get? "name") ++
        (turnsOf document).map fun spot => fullName uncounted spot.chain := by
    have tags := @topTags_declared uncounted document found hasList (turnsOf document)
      fun spot member => (mem_nestedOf.1 ((turnsOf_perm document).subset member)).1
    rw [← floatedUp_eq] at tags
    have named := congrArg (List.filterMap fun tag : Tag => tag.get? "name") tags
    simpa [List.filterMap_map, Function.comp_def] using named
  have same : ((turnsOf document).map fun spot => fullName uncounted spot.chain).Nodup ↔
      FullNamesApart document := ((turnsOf_perm document).map _).nodup_iff
  unfold TopApart
  rw [names, List.nodup_append, same]
  constructor
  · exact fun apart => apart.2.1
  · intro apart
    refine ⟨told.topNames_nodup hasList, apart, ?_⟩
    intro name old full moved isFull
    obtain ⟨object, listed, named⟩ := List.mem_filterMap.1 old
    obtain ⟨spot, member, isName⟩ := List.mem_map.1 moved
    have nested := (mem_nestedOf.1 ((turnsOf_perm document).subset member)).2
    have isObject : object.1 ∈ document.objectTags := by
      unfold Document.topObjects at listed
      rw [hasList] at listed
      obtain ⟨inFound, objectLabelled, _⟩ := Content.mem_named listed
      have first := hasList
      unfold Document.objects? at first
      have inContent := (Content.mem_named (List.mem_of_mem_head? first)).1
      have inside := (Content.elements_inside inContent).subset inFound
      have inWhole : object ∈ document.whole.elements := by
        simp [Document.whole, Content.elements, inside]
      unfold Document.objectTags Document.allObjects
      rw [Content.allNamed_eq]
      exact List.mem_map.2 ⟨object, List.mem_filter.2 ⟨inWhole, objectLabelled⟩, rfl⟩
    have free := (told.free_name isObject named).1
    rw [isFull, ← isName, holds_fullName nested] at free
    exact absurd free (by decide)

theorem Distinguished.referencesFound_iff (told : Distinguished document)
    (hasList : document.objects? = some found) :
    ReferencesFound document ↔ FullNamesApart document := by
  constructor
  · intro references
    apply told.fullNamesApart
    intro first inFirst second inSecond same
    obtain ⟨⟨one, inOne, leftOne⟩, foundOne⟩ := references first inFirst
    obtain ⟨⟨other, inOther, leftOther⟩, foundOther⟩ := references second inSecond
    rw [← foundOne one inOne leftOne, ← foundOther other inOther leftOther,
      told.ref_left hasList (mem_nestedOf.1 inFirst).2 inOne leftOne,
      told.ref_left hasList (mem_nestedOf.1 inSecond).2 inOther leftOther, same]
  · intro apart spot member
    refine ⟨left_searched hasList member, fun tag among left => ?_⟩
    rw [told.ref_left hasList (mem_nestedOf.1 member).2 among left]
    obtain ⟨other, search⟩ : ∃ other, ((turnsOf document).find? fun other =>
        fullName uncounted other.chain == fullName uncounted spot.chain) = some other := by
      apply Option.isSome_iff_exists.1
      apply List.find?_isSome.2
      exact ⟨spot, (turnsOf_perm document).symm.subset member, by simp⟩
    have sameFull : fullName uncounted other.chain = fullName uncounted spot.chain := by
      simpa using List.find?_some search
    have among := (turnsOf_perm document).subset (List.mem_of_find?_eq_some search)
    have same : other = spot := List.inj_on_of_nodup_map apart among member sameFull
    rw [search, same]
    rfl

end Law

/-- In a distinguished document the moved declarations have different names, and each reference
left behind finds its own declaration, if and only if the full names of the nested declarations
differ.  They do when the outermost objects around these have different own names. -/
theorem floated_identified_iff {document : Document} {found : Tag × Content}
    (hasList : document.objects? = some found) (told : Distinguished document) :
    abstractsFloatUp document = .ok (floatedUp document) ∧
    (TopApart (floatedUp document) ↔ FullNamesApart document) ∧
    (ReferencesFound document ↔ FullNamesApart document) ∧
    (OutermostApart document → FullNamesApart document) :=
  ⟨abstractsFloatUp_ok hasList, told.topApart_iff hasList, told.referencesFound_iff hasList,
    told.fullNamesApart_of_outermost⟩

/-- Equally named declarations below an object without a name and below one inside of it, which
has no name either. -/
def twiceInside : Document :=
  programOf (objectWith [("base", "x"), ("line", "1")]
    (objectWith [("abstract", ""), ("name", "f"), ("line", "2")] .nil
      (objectWith [("base", "y"), ("line", "3")]
        (objectWith [("abstract", ""), ("name", "f"), ("line", "4")] .nil .nil) .nil)) .nil)

theorem twiceInside_identified : ∃ found, twiceInside.objects? = some found ∧
    Distinguished twiceInside ∧ TopApart (floatedUp twiceInside) ∧
    ReferencesFound twiceInside := by
  have told : Distinguished twiceInside :=
    ⟨by decide +kernel, by decide +kernel, by decide +kernel, by decide +kernel⟩
  obtain ⟨_, top, references, outermost⟩ := @floated_identified_iff twiceInside _ rfl told
  have apart := outermost (by decide +kernel)
  exact ⟨_, rfl, told, top.2 apart, references.2 apart⟩

/-- Two top-level objects without names, with equally named declarations. -/
def bothUnnamed : Document :=
  programOf (objectWith [("base", "x"), ("line", "1")]
    (objectWith [("abstract", ""), ("name", "f"), ("line", "2")] .nil .nil)
    (objectWith [("base", "y"), ("line", "3")]
      (objectWith [("abstract", ""), ("name", "f"), ("line", "4")] .nil .nil) .nil))

/-- Both declarations get one name, and both references the line of one of them. -/
theorem bothUnnamed_confused : Distinguished bothUnnamed ∧
    abstractsFloatUp bothUnnamed = .ok (floatedUp bothUnnamed) ∧
    ¬TopApart (floatedUp bothUnnamed) ∧ ¬ReferencesFound bothUnnamed := by
  have told : Distinguished bothUnnamed :=
    ⟨by decide +kernel, by decide +kernel, by decide +kernel, by decide +kernel⟩
  have hasList : bothUnnamed.objects? = some _ := rfl
  have shared : ¬FullNamesApart bothUnnamed := by decide +kernel
  refine ⟨told, abstractsFloatUp_ok hasList, ?_, ?_⟩
  · rw [told.topApart_iff hasList]
    exact shared
  · rw [told.referencesFound_iff hasList]
    exact shared

end Pass

end EoAssembly
