import EoAssembly.Pass.FloatUp
import EoAssembly.Proofs.Document.Placement

/-!
Contract: what moving the nested declarations up does to all other objects.

An object that does not move keeps its tag and its position.  The chain of
objects around it ends at the innermost object that moves, because that one
becomes a top-level object; the part of the chain that is kept declares what it
declared before, for a reference left behind carries the name and the line of
its declaration.

Owns `Placement.moves`, `keptAround`, `placementsLifted`, and the laws of `lift`
over placements, tags, lines and nested declarations.
-/

namespace EoAssembly

open Pass (ScopeLevel declaredBy? levelOf lift Floated referenceTo ownName scopeMark
  copyAttribute forestOf deepestFirst abstractsFloatUp withoutObjects)
open Document (tagsIn placementsIn enclosingOf childObjects)

/-- The objects around a place, up to the innermost one that moves. -/
def keptAround : List Enclosing → List Enclosing
  | [] => []
  | innermost :: outer =>
    if innermost.isAbstract && !outer.isEmpty then [innermost]
    else innermost :: keptAround outer

namespace Placement

/-- Whether an object is a nested declaration. -/
def moves (placed : Placement) : Bool :=
  !placed.around.isEmpty && placed.tag.has "abstract"

/-- The object with the chain around it cut behind the innermost one that moves. -/
def kept (placed : Placement) : Placement :=
  { placed with around := keptAround placed.around }

end Placement

namespace Pass

/-! ## References left behind -/

theorem get?_copyAttribute (key other : String) (source target : Xml.Tag) :
    (copyAttribute key source target).get? other =
      if key = other then (source.get? key).or (target.get? other) else target.get? other := by
  unfold copyAttribute
  cases present : source.get? key with
  | none => simp
  | some value =>
    by_cases same : key = other
    · subst same
      simp
    · simp [same, Xml.Tag.get?_set_other target value same]

/-- A reference carries its base and the name, line and position of its declaration. -/
theorem get?_referenceTo (full : String) (tag : Xml.Tag) (key : String) :
    (referenceTo full tag).get? key =
      if key = "pos" ∨ key = "line" ∨ key = "name" then tag.get? key
      else if key = "base" then some full else none := by
  have bare : ∀ other, ((Xml.Tag.plain objectLabel).set "base" full).get? other =
      if other = "base" then some full else none := by
    intro other
    by_cases same : other = "base"
    · subst same
      simp
    · rw [Xml.Tag.get?_set_other _ full (Ne.symm same)]
      simp [same, Xml.Tag.plain, Xml.Tag.get?]
  unfold referenceTo
  simp only [get?_copyAttribute, bare]
  by_cases pos : key = "pos"
  · subst pos
    simp
  · by_cases line : key = "line"
    · subst line
      simp
    · by_cases name : key = "name"
      · subst name
        simp
      · simp [pos, line, name, Ne.symm pos, Ne.symm line, Ne.symm name]

theorem isNamed_referenceTo (full : String) (tag : Xml.Tag) :
    (referenceTo full tag).isNamed objectLabel = true := by
  have copied : ∀ key (target : Xml.Tag),
      (copyAttribute key tag target).isNamed objectLabel = target.isNamed objectLabel := by
    intro key target
    unfold copyAttribute
    cases tag.get? key <;> rfl
  simp only [referenceTo, copied]
  rfl

theorem declaredBy?_referenceTo (full : String) (tag : Xml.Tag) :
    declaredBy? (referenceTo full tag) = declaredBy? tag := by
  simp [declaredBy?, get?_referenceTo]

theorem has_abstract_referenceTo (full : String) (tag : Xml.Tag) :
    (referenceTo full tag).has "abstract" = false := by
  simp [Xml.Tag.has, get?_referenceTo]

/-! ## Levels -/

/-- The objects under a parent declare the same after the nested ones are replaced. -/
theorem levelOf_lift (content : Xml.Content) (chain : List String) (index : Nat) :
    levelOf (lift chain index content).1 = levelOf content := by
  induction content generalizing chain index with
  | nil => rfl
  | leaf node rest inductionHypothesis => exact inductionHypothesis chain index
  | element tag children rest _ restHypothesis =>
    unfold levelOf childObjects at *
    by_cases object : tag.isNamed objectLabel = true
    · by_cases moved : (!chain.isEmpty && tag.has "abstract") = true
      · simp [lift, object, moved, Xml.Content.named, isNamed_referenceTo, restHypothesis,
          declaredBy?_referenceTo]
      · simp [lift, object, moved, Xml.Content.named, restHypothesis]
    · simp [lift, object, Xml.Content.named, restHypothesis]

theorem enclosingOf_lift (tag : Xml.Tag) (content : Xml.Content) (chain : List String)
    (index : Nat) : enclosingOf tag (lift chain index content).1 = enclosingOf tag content := by
  simp [enclosingOf, levelOf_lift]

/-- A declaration on its way up is around what was right under it before. -/
theorem enclosingOf_floated (tag : Xml.Tag) (content : Xml.Content) (full : String)
    (chain : List String) (index : Nat) :
    enclosingOf (tag.set "name" full) (lift chain index content).1 = enclosingOf tag content := by
  have kept : (tag.set "name" full).has "abstract" = tag.has "abstract" :=
    Xml.Tag.has_set_other tag full (by decide)
  simp [enclosingOf, levelOf_lift, kept]

section Chain

variable {around : List Enclosing} {tag : Xml.Tag} {children : Xml.Content}

/-- The chain around what is inside of an object that moves ends at that object. -/
theorem keptAround_moved (moved : (!around.isEmpty && tag.has "abstract") = true) :
    keptAround (enclosingOf tag children :: around) = [enclosingOf tag children] := by
  simp [keptAround, enclosingOf, Bool.and_comm, moved]

theorem keptAround_stays (stays : (!around.isEmpty && tag.has "abstract") = false) :
    keptAround (enclosingOf tag children :: around) =
      enclosingOf tag children :: keptAround around := by
  simp [keptAround, enclosingOf, Bool.and_comm, stays]

end Chain

/-! ## Declarations on their way up -/

/-- A declaration on its way up was a nested one, and it bears its full name. -/
theorem lift_floated (content : Xml.Content) (chain : List String) (around : List Enclosing)
    (sameEnd : chain.isEmpty = around.isEmpty) (atTop awaited : Bool) (index : Nat) :
    ∀ floated ∈ (lift chain index content).2,
      floated.tag.isNamed objectLabel = true ∧
      ∃ placed ∈ placementsIn around atTop awaited index content, placed.moves = true ∧
        ∃ outer ≠ [], floated.tag = placed.tag.set "name"
          (Text.joinAll scopeMark (outer ++ [ownName placed.tag placed.index])) := by
  induction content generalizing chain around atTop awaited index with
  | nil =>
    intro floated member
    simp [lift] at member
  | leaf node rest inductionHypothesis =>
    exact inductionHypothesis chain around sameEnd atTop awaited index
  | element tag children rest innerHypothesis restHypothesis =>
    intro floated member
    by_cases object : tag.isNamed objectLabel = true
    · have inner := innerHypothesis
        (chain ++ [ownName tag (if chain.isEmpty then 0 else index)])
        (enclosingOf tag children :: around) (by simp) false false 0 floated
      have later := restHypothesis chain around sameEnd atTop awaited (index + 1) floated
      simp only [Document.mem_placementsIn_object object]
      by_cases moved : (!chain.isEmpty && tag.has "abstract") = true
      · simp only [lift, object, moved, if_true, List.cons_append, List.mem_cons,
          List.mem_append] at member
        rcases member with here | nested | behind
        · rw [here]
          simp only [Bool.and_eq_true, Bool.not_eq_true'] at moved
          have movesHere :
              (⟨tag, around, index, atTop⟩ : Placement).moves = true := by
            simp [Placement.moves, ← sameEnd, moved.1, moved.2]
          refine ⟨object, ⟨tag, around, index, atTop⟩, Or.inl rfl, movesHere, chain, ?_, ?_⟩
          · intro none
            simp [none] at moved
          · simp [moved.1]
        · obtain ⟨named, placed, place, rest⟩ := inner nested
          exact ⟨named, placed, Or.inr (Or.inl place), rest⟩
        · obtain ⟨named, placed, place, rest⟩ := later behind
          exact ⟨named, placed, Or.inr (Or.inr place), rest⟩
      · simp only [lift, object, moved, Bool.false_eq_true, if_true, if_false,
          List.mem_append] at member
        rcases member with nested | behind
        · obtain ⟨named, placed, place, rest⟩ := inner nested
          exact ⟨named, placed, Or.inr (Or.inl place), rest⟩
        · obtain ⟨named, placed, place, rest⟩ := later behind
          exact ⟨named, placed, Or.inr (Or.inr place), rest⟩
    · simp only [lift, object, Bool.false_eq_true, if_false, List.mem_append] at member
      simp only [Document.mem_placementsIn_other object]
      rcases member with nested | behind
      · obtain ⟨named, placed, place, rest⟩ :=
          innerHypothesis [] [] rfl (awaited && tag.isNamed objectsLabel) false 0 floated nested
        exact ⟨named, placed, Or.inl place, rest⟩
      · obtain ⟨named, placed, place, rest⟩ := restHypothesis chain around sameEnd atTop
          (awaited && !(awaited && tag.isNamed objectsLabel)) index floated behind
        exact ⟨named, placed, Or.inr place, rest⟩

/-! ## Where objects stand after the moves -/

/-- The objects inside of a declaration on its way up. -/
def Floated.inside (floated : Floated) : List Placement :=
  placementsIn [enclosingOf floated.tag floated.content] false false 0 floated.content

/-- The objects of a forest after the moves, with those inside of the declarations on
their way up. -/
def placementsLifted (chain : List String) (around : List Enclosing) (atTop awaited : Bool)
    (index : Nat) (content : Xml.Content) : List Placement :=
  placementsIn (keptAround around) atTop awaited index (lift chain index content).1 ++
    (lift chain index content).2.flatMap Floated.inside

section Lifted

variable {chain : List String} {around : List Enclosing} {atTop awaited : Bool} {index : Nat}
  {tag : Xml.Tag} {children rest content : Xml.Content} {after : Placement}

theorem mem_placementsLifted : after ∈ placementsLifted chain around atTop awaited index content ↔
    after ∈ placementsIn (keptAround around) atTop awaited index (lift chain index content).1 ∨
    ∃ floated ∈ (lift chain index content).2, after ∈ floated.inside := by
  unfold placementsLifted
  rw [List.mem_append, List.mem_flatMap]

theorem mem_placementsLifted_moved (object : tag.isNamed objectLabel = true)
    (sameEnd : chain.isEmpty = around.isEmpty)
    (moved : (!around.isEmpty && tag.has "abstract") = true) :
    after ∈ placementsLifted chain around atTop awaited index (.element tag children rest) ↔
      after = ⟨referenceTo (Text.joinAll scopeMark (chain ++ [ownName tag
        (if chain.isEmpty then 0 else index)])) tag, keptAround around, index, atTop⟩ ∨
      after ∈ placementsLifted (chain ++ [ownName tag (if chain.isEmpty then 0 else index)])
        (enclosingOf tag children :: around) false false 0 children ∨
      after ∈ placementsLifted chain around atTop awaited (index + 1) rest := by
  have ofChain := moved
  rw [← sameEnd] at ofChain
  simp only [placementsLifted, lift, object, ofChain, if_true, keptAround_moved moved,
    List.cons_append, List.flatMap_cons, List.flatMap_append, List.mem_append]
  rw [Document.mem_placementsIn_object (isNamed_referenceTo _ tag)]
  simp only [Floated.inside, enclosingOf_floated, placementsIn, List.not_mem_nil, false_or]
  grind

theorem mem_placementsLifted_stays (object : tag.isNamed objectLabel = true)
    (sameEnd : chain.isEmpty = around.isEmpty)
    (stays : (!around.isEmpty && tag.has "abstract") = false) :
    after ∈ placementsLifted chain around atTop awaited index (.element tag children rest) ↔
      after = ⟨tag, keptAround around, index, atTop⟩ ∨
      after ∈ placementsLifted (chain ++ [ownName tag (if chain.isEmpty then 0 else index)])
        (enclosingOf tag children :: around) false false 0 children ∨
      after ∈ placementsLifted chain around atTop awaited (index + 1) rest := by
  have ofChain := stays
  rw [← sameEnd] at ofChain
  simp only [placementsLifted, lift, object, ofChain, if_true, Bool.false_eq_true, if_false,
    keptAround_stays stays, List.flatMap_append, List.mem_append]
  rw [Document.mem_placementsIn_object object, enclosingOf_lift]
  grind

theorem mem_placementsLifted_other (noObject : ¬tag.isNamed objectLabel = true) :
    after ∈ placementsLifted chain around atTop awaited index (.element tag children rest) ↔
      after ∈ placementsLifted [] [] (awaited && tag.isNamed objectsLabel) false 0 children ∨
      after ∈ placementsLifted chain around atTop
        (awaited && !(awaited && tag.isNamed objectsLabel)) index rest := by
  simp only [placementsLifted, lift, noObject, Bool.false_eq_true, if_false,
    List.flatMap_append, List.mem_append]
  rw [Document.mem_placementsIn_other noObject]
  simp only [keptAround]
  grind

end Lifted

/-- An object that does not move stands where it stood, in the document or in a
declaration on its way up, with the chain around it cut. -/
theorem lift_placements (content : Xml.Content) (chain : List String)
    (around : List Enclosing) (sameEnd : chain.isEmpty = around.isEmpty)
    (atTop awaited : Bool) (index : Nat) :
    ∀ placed ∈ placementsIn around atTop awaited index content, placed.moves = false →
      placed.kept ∈ placementsLifted chain around atTop awaited index content := by
  induction content generalizing chain around atTop awaited index with
  | nil =>
    intro placed member
    simp [placementsIn] at member
  | leaf node rest inductionHypothesis =>
    exact inductionHypothesis chain around sameEnd atTop awaited index
  | element tag children rest innerHypothesis restHypothesis =>
    intro placed member stays
    by_cases object : tag.isNamed objectLabel = true
    · have inner := innerHypothesis
        (chain ++ [ownName tag (if chain.isEmpty then 0 else index)])
        (enclosingOf tag children :: around) (by simp) false false 0 placed
      have later := restHypothesis chain around sameEnd atTop awaited (index + 1) placed
      rw [Document.mem_placementsIn_object object] at member
      cases moved : !around.isEmpty && tag.has "abstract" with
      | true =>
        rw [mem_placementsLifted_moved object sameEnd moved]
        rcases member with here | nested | behind
        · simp [here, Placement.moves, moved] at stays
        · exact Or.inr (Or.inl (inner nested stays))
        · exact Or.inr (Or.inr (later behind stays))
      | false =>
        rw [mem_placementsLifted_stays object sameEnd moved]
        rcases member with here | nested | behind
        · rw [here]
          exact Or.inl rfl
        · exact Or.inr (Or.inl (inner nested stays))
        · exact Or.inr (Or.inr (later behind stays))
    · rw [Document.mem_placementsIn_other object] at member
      rw [mem_placementsLifted_other object]
      rcases member with nested | behind
      · exact Or.inl (innerHypothesis [] [] rfl _ false 0 placed nested stays)
      · exact Or.inr (restHypothesis chain around sameEnd atTop _ index placed behind stays)

/-! ## Nothing else appears -/

theorem moves_kept (placed : Placement) : placed.kept.moves = placed.moves := by
  have sameEnd : (keptAround placed.around).isEmpty = placed.around.isEmpty := by
    cases placed.around with
    | nil => rfl
    | cons innermost outer =>
      unfold keptAround
      split <;> rfl
  simp only [Placement.moves, Placement.kept, sameEnd]

/-- What an object after the moves was before them: the same object, which did not
move, or the declaration that it now refers to. -/
def ComesFrom (before : List Placement) (after : Placement) : Prop :=
  ∃ placed ∈ before, (placed.moves = false ∧ after = placed.kept) ∨
    (placed.moves = true ∧ ∃ full, after.tag = referenceTo full placed.tag)

theorem ComesFrom.mono {before more : List Placement} {after : Placement}
    (origin : ComesFrom before after) (included : ∀ placed ∈ before, placed ∈ more) :
    ComesFrom more after := by
  obtain ⟨placed, member, how⟩ := origin
  exact ⟨placed, included placed member, how⟩

/-- Every object below the root of a forest or of a declaration on its way up comes
from an object of the forest before. -/
theorem lift_origins (content : Xml.Content) (chain : List String)
    (around : List Enclosing) (sameEnd : chain.isEmpty = around.isEmpty)
    (atTop awaited : Bool) (index : Nat) :
    ∀ after ∈ placementsLifted chain around atTop awaited index content,
      ComesFrom (placementsIn around atTop awaited index content) after := by
  induction content generalizing chain around atTop awaited index with
  | nil =>
    intro after member
    simp [placementsLifted, lift, placementsIn] at member
  | leaf node rest inductionHypothesis =>
    exact inductionHypothesis chain around sameEnd atTop awaited index
  | element tag children rest innerHypothesis restHypothesis =>
    intro after member
    by_cases object : tag.isNamed objectLabel = true
    · have inner := innerHypothesis
        (chain ++ [ownName tag (if chain.isEmpty then 0 else index)])
        (enclosingOf tag children :: around) (by simp) false false 0 after
      have later := restHypothesis chain around sameEnd atTop awaited (index + 1) after
      have here : (⟨tag, around, index, atTop⟩ : Placement) ∈
          placementsIn around atTop awaited index (.element tag children rest) :=
        (Document.mem_placementsIn_object object).2 (Or.inl rfl)
      have ofInner : after ∈ placementsLifted _ _ false false 0 children →
          ComesFrom (placementsIn around atTop awaited index (.element tag children rest)) after :=
        fun nested => (inner nested).mono fun placed inside =>
          (Document.mem_placementsIn_object object).2 (Or.inr (Or.inl inside))
      have ofLater : after ∈ placementsLifted chain around atTop awaited (index + 1) rest →
          ComesFrom (placementsIn around atTop awaited index (.element tag children rest)) after :=
        fun behind => (later behind).mono fun placed inside =>
          (Document.mem_placementsIn_object object).2 (Or.inr (Or.inr inside))
      cases moved : !around.isEmpty && tag.has "abstract" with
      | true =>
        rw [mem_placementsLifted_moved object sameEnd moved] at member
        rcases member with reference | nested | behind
        · exact ⟨_, here, Or.inr ⟨moved, _, congrArg Placement.tag reference⟩⟩
        · exact ofInner nested
        · exact ofLater behind
      | false =>
        rw [mem_placementsLifted_stays object sameEnd moved] at member
        rcases member with own | nested | behind
        · exact ⟨_, here, Or.inl ⟨moved, own⟩⟩
        · exact ofInner nested
        · exact ofLater behind
    · rw [mem_placementsLifted_other object] at member
      rcases member with nested | behind
      · refine (innerHypothesis [] [] rfl _ false 0 after nested).mono fun placed inside => ?_
        exact (Document.mem_placementsIn_other object).2 (Or.inl inside)
      · refine (restHypothesis chain around sameEnd atTop _ index after behind).mono
          fun placed inside => ?_
        exact (Document.mem_placementsIn_other object).2 (Or.inr inside)

end Pass

end EoAssembly
