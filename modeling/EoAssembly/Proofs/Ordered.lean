import EoAssembly.Ordered
import Mathlib.Data.List.Forall2
import Mathlib.Data.List.Induction

/-!
Contract: finite maps in ascending order behave as finite maps.

Owns what `put` adds, what `find?` reads afterwards, that both keep to the
order and to a relation of the items, that a map is told by what is found in it,
and the members of `names`.
-/

namespace EoAssembly.Ordered

universe u

variable {α : Type u}

theorem put_cons (key : α → String) (item other : α) (rest : List α) :
    put key item (other :: rest) =
      if key item < key other then item :: other :: rest
      else if key item = key other then item :: rest
      else other :: put key item rest := rfl

/-- After an item was put, the list holds it and otherwise only items from before. -/
theorem mem_of_mem_put {key : α → String} {item other : α} {items : List α}
    (member : other ∈ put key item items) : other = item ∨ other ∈ items := by
  induction items with
  | nil => exact Or.inl (List.mem_singleton.1 member)
  | cons first rest inductionHypothesis =>
    rw [put_cons] at member
    split at member
    · exact List.mem_cons.1 member
    · split at member
      · rcases List.mem_cons.1 member with here | behind
        · exact Or.inl here
        · exact Or.inr (List.mem_cons_of_mem first behind)
      · rcases List.mem_cons.1 member with here | behind
        · exact Or.inr (here ▸ List.mem_cons_self)
        · exact (inductionHypothesis behind).imp_right (List.mem_cons_of_mem first)

theorem mem_put_self (key : α → String) (item : α) (items : List α) :
    item ∈ put key item items := by
  induction items with
  | nil => exact List.mem_singleton.2 rfl
  | cons first rest inductionHypothesis =>
    rw [put_cons]
    split
    · exact List.mem_cons_self
    · split
      · exact List.mem_cons_self
      · exact List.mem_cons_of_mem first inductionHypothesis

/-- An item with another key stays. -/
theorem mem_put_of_ne {key : α → String} {item other : α} {items : List α}
    (different : key item ≠ key other) (member : other ∈ items) :
    other ∈ put key item items := by
  induction items with
  | nil => simp at member
  | cons first rest inductionHypothesis =>
    rw [put_cons]
    split
    · exact List.mem_cons_of_mem item member
    · split
      · next same =>
        rcases List.mem_cons.1 member with here | behind
        · rw [here] at different
          exact absurd same different
        · exact List.mem_cons_of_mem item behind
      · rcases List.mem_cons.1 member with here | behind
        · rw [here]
          exact List.mem_cons_self
        · exact List.mem_cons_of_mem first (inductionHypothesis behind)

/-! ## Looking up -/

/-- Putting an item that is there changes nothing. -/
theorem put_of_mem {key : α → String} {item : α} {items : List α} (ascending : Ascending key items)
    (member : item ∈ items) : put key item items = items := by
  induction items with
  | nil => exact absurd member (by simp)
  | cons first rest inductionHypothesis =>
    obtain ⟨above, later⟩ := List.pairwise_cons.1 ascending
    rw [put_cons]
    rcases List.mem_cons.1 member with here | behind
    · rw [here, if_neg (String.lt_irrefl _), if_pos rfl]
    · have less := above item behind
      have different : key item ≠ key first := by
        intro same
        rw [same] at less
        exact String.lt_irrefl _ less
      rw [if_neg (String.lt_asymm less), if_neg different, inductionHypothesis later behind]

theorem find?_put_same (key : α → String) (item : α) (items : List α) :
    find? key (key item) (put key item items) = some item := by
  unfold find?
  induction items with
  | nil => simp [put]
  | cons first rest inductionHypothesis =>
    rw [put_cons]
    split
    · simp
    · split
      · simp
      · next different =>
        have apart : (key first == key item) = false := beq_eq_false_iff_ne.2 (Ne.symm different)
        rw [List.find?_cons, apart]
        exact inductionHypothesis

theorem find?_put_other {key : α → String} {item : α} {name : String}
    (different : key item ≠ name) (items : List α) :
    find? key name (put key item items) = find? key name items := by
  have apart : (key item == name) = false := beq_eq_false_iff_ne.2 different
  unfold find?
  induction items with
  | nil => simp [put, apart]
  | cons first rest inductionHypothesis =>
    rw [put_cons]
    split
    · rw [List.find?_cons, apart]
    · split
      · next same =>
        rw [List.find?_cons, apart, List.find?_cons, ← same, apart]
      · rw [List.find?_cons, List.find?_cons, inductionHypothesis]

theorem key_of_find? {key : α → String} {name : String} {items : List α} {item : α}
    (found : find? key name items = some item) : key item = name ∧ item ∈ items := by
  unfold find? at found
  have passes := List.find?_some found
  exact ⟨by simpa using passes, List.mem_of_find?_eq_some found⟩

/-! ## Order -/

theorem ascending_put {key : α → String} {item : α} {items : List α}
    (ascending : Ascending key items) : Ascending key (put key item items) := by
  unfold Ascending at *
  induction items with
  | nil => exact List.pairwise_singleton _ _
  | cons first rest inductionHypothesis =>
    obtain ⟨below, later⟩ := List.pairwise_cons.1 ascending
    rw [put_cons]
    split
    · next before =>
      refine List.pairwise_cons.2 ⟨fun other member => ?_, ascending⟩
      rcases List.mem_cons.1 member with here | behind
      · rw [here]
        exact before
      · exact String.lt_trans before (below other behind)
    · next notBefore =>
      split
      · next same =>
        refine List.pairwise_cons.2 ⟨fun other member => ?_, later⟩
        rw [same]
        exact below other member
      · next different =>
        refine List.pairwise_cons.2 ⟨fun other member => ?_, inductionHypothesis later⟩
        rcases mem_of_mem_put member with new | old
        · rw [new]
          rcases Std.lt_trichotomy (key item) (key first) with wrong | wrong | behind
          · exact absurd wrong notBefore
          · exact absurd wrong different
          · exact behind
        · exact below other old

theorem ascending_ofList (key : α → String) (items : List α) :
    Ascending key (ofList key items) := by
  have folded : ∀ start : List α, Ascending key start →
      Ascending key (items.foldl (fun sorted item => put key item sorted) start) := by
    induction items with
    | nil => exact fun _ ascending => ascending
    | cons first rest inductionHypothesis =>
      exact fun start ascending => inductionHypothesis _ (ascending_put ascending)
  exact folded [] List.Pairwise.nil

theorem put_above {key : α → String} {item : α} {items : List α}
    (above : ∀ other ∈ items, key other < key item) : put key item items = items ++ [item] := by
  induction items with
  | nil => rfl
  | cons first rest inductionHypothesis =>
    have here := above first List.mem_cons_self
    rw [put_cons]
    have different : key item ≠ key first := by
      intro same
      rw [same] at here
      exact String.lt_irrefl _ here
    rw [if_neg (String.lt_asymm here), if_neg different,
      inductionHypothesis fun other member => above other (List.mem_cons_of_mem first member)]
    rfl

/-- A list in order is what its items come to in order. -/
theorem ofList_of_ascending {key : α → String} {items : List α}
    (ascending : Ascending key items) : ofList key items = items := by
  have folded : ∀ rest front : List α, Ascending key (front ++ rest) →
      rest.foldl (fun sorted item => put key item sorted) front = front ++ rest := by
    intro rest
    induction rest with
    | nil => simp
    | cons first others inductionHypothesis =>
      intro front whole
      have above : ∀ other ∈ front, key other < key first := fun other member =>
        (List.pairwise_append.1 whole).2.2 other member first List.mem_cons_self
      rw [List.foldl_cons, put_above above, inductionHypothesis]
      · simp
      · simpa using whole
  exact folded items [] ascending

/-- In a list put in order the last item with a key is found. -/
theorem find?_ofList {key : α → String} {name : String} (items : List α) :
    find? key name (ofList key items) = items.reverse.find? fun item => key item == name := by
  induction items using List.reverseRecOn with
  | nil => rfl
  | append_singleton front last inductionHypothesis =>
    have step : ofList key (front ++ [last]) = put key last (ofList key front) := by
      simp [ofList]
    rw [step, List.reverse_append, List.reverse_singleton, List.singleton_append, List.find?_cons]
    by_cases same : key last = name
    · rw [← same, find?_put_same]
      simp
    · rw [find?_put_other same, inductionHypothesis, beq_eq_false_iff_ne.2 same]

/-- In an ascending list an item is the one that its key finds. -/
theorem find?_of_mem {key : α → String} {items : List α} (ascending : Ascending key items)
    {item : α} (member : item ∈ items) : find? key (key item) items = some item := by
  unfold Ascending find? at *
  induction items with
  | nil => exact absurd member (by simp)
  | cons first rest inductionHypothesis =>
    obtain ⟨below, later⟩ := List.pairwise_cons.1 ascending
    rcases List.mem_cons.1 member with here | behind
    · rw [here]
      simp
    · have apart : (key first == key item) = false := by
        rw [beq_eq_false_iff_ne]
        intro same
        have less := below item behind
        rw [same] at less
        exact String.lt_irrefl _ less
      rw [List.find?_cons, apart]
      exact inductionHypothesis later behind

theorem nodup_of_ascending {key : α → String} {items : List α} (ascending : Ascending key items) :
    items.Nodup := by
  refine ascending.imp fun less same => ?_
  rw [same] at less
  exact String.lt_irrefl _ less

/-- Maps in order with the same items under all keys are the same. -/
theorem eq_of_find? {key : α → String} {items others : List α} (ascending : Ascending key items)
    (ascendingOthers : Ascending key others)
    (same : ∀ name, find? key name items = find? key name others) : items = others := by
  have members : ∀ item, item ∈ items ↔ item ∈ others := by
    intro item
    constructor
    · intro member
      have found := find?_of_mem ascending member
      rw [same] at found
      exact (key_of_find? found).2
    · intro member
      have found := find?_of_mem ascendingOthers member
      rw [← same] at found
      exact (key_of_find? found).2
  have perm : items.Perm others := (List.perm_ext_iff_of_nodup (nodup_of_ascending ascending)
    (nodup_of_ascending ascendingOthers)).2 members
  exact perm.eq_of_pairwise (fun _ _ _ _ less more => absurd more (String.lt_asymm less)) ascending
    ascendingOthers

/-! ## Names -/

theorem mem_foldl_put {items start : List String} {name : String} :
    name ∈ items.foldl (fun sorted item => put id item sorted) start ↔
      name ∈ start ∨ name ∈ items := by
  induction items generalizing start with
  | nil => simp
  | cons first rest inductionHypothesis =>
    rw [List.foldl_cons, inductionHypothesis, List.mem_cons]
    have added : name ∈ put id first start ↔ name = first ∨ name ∈ start := by
      constructor
      · exact mem_of_mem_put
      · rintro (same | before)
        · rw [same]
          exact mem_put_self id first start
        · by_cases same : first = name
          · rw [same]
            exact mem_put_self id name start
          · exact mem_put_of_ne same before
    rw [added]
    constructor
    · rintro ((same | before) | behind)
      · exact Or.inr (Or.inl same)
      · exact Or.inl before
      · exact Or.inr (Or.inr behind)
    · rintro (before | same | behind)
      · exact Or.inl (Or.inr before)
      · exact Or.inl (Or.inl same)
      · exact Or.inr behind

/-- A set of names holds the names it was made of. -/
theorem mem_names {items : List String} {name : String} :
    name ∈ names items ↔ name ∈ items := by
  unfold names ofList
  rw [mem_foldl_put]
  simp

theorem nodup_names (items : List String) : (names items).Nodup :=
  nodup_of_ascending (ascending_ofList id items)

/-! ## Lists with related items -/

section Related

variable {key : α → String} {items : List α} {item : α}

theorem related_trans (related : α → α → Prop) (transitive : ∀ {first second third},
    related first second → related second third → related first third) {first second third : List α}
    (left : List.Forall₂ related first second) (right : List.Forall₂ related second third) :
    List.Forall₂ related first third := by
  induction left generalizing third with
  | nil => exact right
  | cons here _ inductionHypothesis =>
    obtain ⟨last, others, there, behind, same⟩ := List.forall₂_cons_left_iff.1 right
    rw [same]
    exact .cons (transitive here there) (inductionHypothesis behind)

theorem mem_of_mem_ofList (member : item ∈ ofList key items) : item ∈ items := by
  have folded : ∀ rest front : List α,
      item ∈ rest.foldl (fun sorted other => put key other sorted) front →
        item ∈ front ∨ item ∈ rest := by
    intro rest
    induction rest with
    | nil => exact fun _ inside => Or.inl inside
    | cons first others inductionHypothesis =>
      intro front inside
      rcases inductionHypothesis _ inside with before | behind
      · rcases mem_of_mem_put before with here | earlier
        · exact Or.inr (here ▸ List.mem_cons_self)
        · exact Or.inl earlier
      · exact Or.inr (List.mem_cons_of_mem first behind)
  simpa using folded items [] member

/-- An item in place of a related one keeps the whole list related. -/
theorem related_put (related : α → α → Prop) (reflexive : ∀ other, related other other)
    {before : α} (ascending : Ascending key items) (found : find? key (key item) items = some before)
    (holds : related item before) : List.Forall₂ related (put key item items) items := by
  induction items with
  | nil => exact absurd found (by simp [find?])
  | cons first rest inductionHypothesis =>
    have behind := (List.pairwise_cons.1 ascending).2
    rw [put_cons]
    by_cases same : key item = key first
    · rw [if_neg (by rw [same]; exact String.lt_irrefl _), if_pos same]
      have here : first = before := by
        simpa [find?, same] using found
      exact .cons (here ▸ holds) (List.forall₂_same.2 fun other _ => reflexive other)
    · have later : find? key (key item) rest = some before := by
        simpa [find?, Ne.symm same] using found
      have above : key first < key item := by
        obtain ⟨isKey, member⟩ := key_of_find? later
        rw [← isKey]
        exact (List.pairwise_cons.1 ascending).1 before member
      rw [if_neg (String.lt_asymm above), if_neg same]
      exact .cons (reflexive first) (inductionHypothesis behind later)

theorem length_put_missing (missing : find? key (key item) items = none) :
    (put key item items).length = items.length + 1 := by
  unfold find? at missing
  induction items with
  | nil => rfl
  | cons first rest inductionHypothesis =>
    have different : ¬key item = key first := fun same => by simp [same] at missing
    have later : rest.find? (fun other => key other == key item) = none := by
      rw [List.find?_cons, beq_eq_false_iff_ne.2 (Ne.symm different)] at missing
      exact missing
    rw [put_cons, if_neg different]
    split
    · rfl
    · rw [List.length_cons, inductionHypothesis later, List.length_cons]

theorem length_put_found (ascending : Ascending key items) {before : α}
    (found : find? key (key item) items = some before) :
    (put key item items).length = items.length :=
  (related_put (fun _ _ => True) (fun _ => trivial) ascending found trivial).length_eq

/-- Related lists hold related items under every key. -/
theorem related_find? (related : α → α → Prop) (keys : ∀ {left right}, related left right →
    key left = key right) {others : List α} (all : List.Forall₂ related items others)
    (name : String) : Option.Rel related (find? key name items) (find? key name others) := by
  induction all with
  | nil => exact .none
  | cons first rest inductionHypothesis =>
    unfold find? at inductionHypothesis ⊢
    rw [List.find?_cons, List.find?_cons, keys first]
    split
    · exact .some first
    · exact inductionHypothesis

end Related

end EoAssembly.Ordered
