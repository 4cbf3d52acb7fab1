import EoAssembly.Build.Assembly

/-!
Contract: which objects a project needs, apart from any run.

An object needs the objects that its optimized document refers to, as the
document reads back.  What the document says follows from the sources of the
project, the store and the parser alone.  The distance of an object is the
number of references that lead to it from a registered one.

Owns `Reaches` and `IsDepth` for any references, and the references of a project.

Does not own: the order in which a build finds them.
-/

namespace EoAssembly.Build

/-! ## Distances -/

/-- A number of references leads from a root to an object. -/
inductive Reaches (roots : List String) (refers : String → List String) : Nat → String → Prop where
  | root {id : String} (member : id ∈ roots) : Reaches roots refers 0 id
  | refers {count : Nat} {id name : String} (before : Reaches roots refers count id)
    (member : name ∈ refers id) : Reaches roots refers (count + 1) name

section Distance

variable {roots : List String} {refers : String → List String}

/-- At most a number of references lead from a root to an object. -/
def Within (roots : List String) (refers : String → List String) (count : Nat) (id : String) :
    Prop :=
  ∃ fewer, fewer ≤ count ∧ Reaches roots refers fewer id

/-- The number of references that lead from a root to an object is the least one. -/
def AtDistance (roots : List String) (refers : String → List String) (count : Nat) (id : String) :
    Prop :=
  Reaches roots refers count id ∧ ∀ other, Reaches roots refers other id → count ≤ other

/-- An object is a root, or references lead to it from one. -/
def Needed (roots : List String) (refers : String → List String) (id : String) : Prop :=
  ∃ count, Reaches roots refers count id

/-- The largest distance of an object that is needed. -/
structure IsDepth (roots : List String) (refers : String → List String) (depth : Nat) : Prop where
  within : ∀ id, Needed roots refers id → Within roots refers depth id
  reached : ∃ id, AtDistance roots refers depth id

theorem Within.mono {count more : Nat} {id : String} (less : count ≤ more)
    (within : Within roots refers count id) : Within roots refers more id := by
  obtain ⟨fewer, below, reaches⟩ := within
  exact ⟨fewer, Nat.le_trans below less, reaches⟩

theorem Within.needed {count : Nat} {id : String} (within : Within roots refers count id) :
    Needed roots refers id := by
  obtain ⟨fewer, _, reaches⟩ := within
  exact ⟨fewer, reaches⟩

/-- What holds the roots and all that its members refer to holds what is needed. -/
theorem Needed.least {id : String} (needed : Needed roots refers id) (all : String → Prop)
    (root : ∀ id ∈ roots, all id) (closed : ∀ id, all id → ∀ name ∈ refers id, all name) :
    all id := by
  obtain ⟨count, reaches⟩ := needed
  induction reaches with
  | root member => exact root _ member
  | refers _ member inductionHypothesis => exact closed _ inductionHypothesis _ member

theorem within_zero {id : String} : Within roots refers 0 id ↔ id ∈ roots := by
  constructor
  · rintro ⟨fewer, below, reaches⟩
    cases reaches with
    | root member => exact member
    | refers before member => exact absurd below (by omega)
  · exact fun member => ⟨0, Nat.le_refl 0, .root member⟩

/-- One reference more reaches what was reached and what that refers to. -/
theorem within_succ {count : Nat} {name : String} :
    Within roots refers (count + 1) name ↔
      Within roots refers count name ∨
        ∃ id, Within roots refers count id ∧ name ∈ refers id := by
  constructor
  · rintro ⟨fewer, below, reaches⟩
    cases reaches with
    | root member => exact Or.inl ⟨0, Nat.zero_le count, .root member⟩
    | refers before member => exact Or.inr ⟨_, ⟨_, by omega, before⟩, member⟩
  · rintro (within | ⟨id, ⟨fewer, below, reaches⟩, member⟩)
    · exact within.mono (Nat.le_succ count)
    · exact ⟨fewer + 1, by omega, .refers reaches member⟩

theorem AtDistance.not_within {count less : Nat} {id : String} (smaller : less < count)
    (here : AtDistance roots refers count id) : ¬Within roots refers less id := by
  rintro ⟨fewer, below, reaches⟩
  have least := here.2 fewer reaches
  omega

/-- An object at some distance has one a reference before it. -/
theorem atDistance_before {count : Nat} (some_ : ∃ id, AtDistance roots refers (count + 1) id) :
    ∃ id, AtDistance roots refers count id := by
  obtain ⟨name, reaches, least⟩ := some_
  cases reaches with
  | refers before member =>
    refine ⟨_, before, fun other reachesOther => ?_⟩
    have further := least (other + 1) (.refers reachesOther member)
    omega

/-- There are objects at every distance up to the depth. -/
theorem IsDepth.atDistance {depth count : Nat} (isDepth : IsDepth roots refers depth)
    (below : count ≤ depth) : ∃ id, AtDistance roots refers count id := by
  have back : ∀ gap, (∃ id, AtDistance roots refers (count + gap) id) →
      ∃ id, AtDistance roots refers count id := by
    intro gap
    induction gap with
    | zero => exact fun some_ => some_
    | succ gap inductionHypothesis =>
      exact fun some_ => inductionHypothesis (atDistance_before some_)
  obtain ⟨gap, same⟩ := Nat.exists_eq_add_of_le below
  refine back gap ?_
  rw [← same]
  exact isDepth.reached

/-- Finitely many objects have a bound on their distances. -/
theorem exists_bound (all : List String) :
    ∃ bound, ∀ id ∈ all, Needed roots refers id → Within roots refers bound id := by
  induction all with
  | nil => exact ⟨0, by simp⟩
  | cons first rest inductionHypothesis =>
    obtain ⟨bound, holds⟩ := inductionHypothesis
    by_cases needed : Needed roots refers first
    · obtain ⟨count, reaches⟩ := needed
      refine ⟨max count bound, fun id member isNeeded => ?_⟩
      rcases List.mem_cons.1 member with here | later
      · rw [here]
        exact ⟨count, Nat.le_max_left count bound, reaches⟩
      · exact (holds id later isNeeded).mono (Nat.le_max_right count bound)
    · refine ⟨bound, fun id member isNeeded => ?_⟩
      rcases List.mem_cons.1 member with here | later
      · rw [here] at isNeeded
        exact absurd isNeeded needed
      · exact holds id later isNeeded

/-- When finitely many objects are needed, one of them is farthest. -/
theorem exists_depth {root : String} (member : root ∈ roots) {all : List String}
    (finite : ∀ id, Needed roots refers id → id ∈ all) : ∃ depth, IsDepth roots refers depth := by
  obtain ⟨bound, holds⟩ : ∃ bound, ∀ id ∈ all, Needed roots refers id →
    Within roots refers bound id := exists_bound all
  have within : ∀ id, Needed roots refers id → Within roots refers bound id :=
    fun id needed => holds id (finite id needed) needed
  clear holds
  -- a bound that no object meets is not the least one
  induction bound with
  | zero => exact ⟨0, within, root, .root member, fun _ _ => Nat.zero_le _⟩
  | succ less inductionHypothesis =>
    by_cases smaller : ∀ id, Needed roots refers id → Within roots refers less id
    · exact inductionHypothesis smaller
    · obtain ⟨id, farther⟩ := Classical.not_forall.1 smaller
      obtain ⟨needed, notWithin⟩ := Classical.not_imp.1 farther
      have least : ∀ other, Reaches roots refers other id → less + 1 ≤ other := by
        intro other reaches
        rcases Nat.lt_or_ge less other with above | below
        · exact above
        · exact absurd ⟨other, below, reaches⟩ notWithin
      obtain ⟨count, below, reaches⟩ := within id needed
      have same : count = less + 1 := Nat.le_antisymm below (least count reaches)
      rw [same] at reaches
      exact ⟨less + 1, within, id, reaches, least⟩

end Distance

/-! ## The references of a project -/

/-- The files that a build registers. -/
def registeredFiles (settings : Settings) (disk : Disk) : List Path :=
  match Settings.patterns settings.included, Settings.patterns settings.excluded with
  | .ok included, .ok excluded => selectedFiles disk settings.sources included excluded
  | _, _ => []

/-- The name of the object of a file. -/
def idOf (file : Path) : String := ObjectName.ofRelativePath file sourceExtension

/-- The objects that a build registers. -/
def registeredIds (settings : Settings) (disk : Disk) : List String :=
  (registeredFiles settings disk).map idOf

/-- The last of files whose object has a name. -/
def lastNamed (files : List Path) (id : String) : Option Path :=
  (files.filter fun file => idOf file == id).getLast?

/-- The file of a registered object, the last one of its name. -/
def fileOf? (settings : Settings) (disk : Disk) (id : String) : Option Path :=
  lastNamed (registeredFiles settings disk) id

section LastNamed

variable {files : List Path} {file : Path} {id : String}

theorem lastNamed_concat (files : List Path) (file : Path) (id : String) :
    lastNamed (files ++ [file]) id = if idOf file = id then some file else lastNamed files id := by
  unfold lastNamed
  rw [List.filter_append]
  by_cases same : idOf file = id
  · simp [same]
  · simp [same]

theorem lastNamed_mem (found : lastNamed files id = some file) : file ∈ files ∧ idOf file = id := by
  obtain ⟨member, same⟩ := List.mem_filter.1 (List.mem_of_getLast? found)
  exact ⟨member, beq_iff_eq.1 same⟩

/-- The object of a file has a last file. -/
theorem lastNamed_of_mem (member : file ∈ files) :
    ∃ last, lastNamed files (idOf file) = some last := by
  refine Option.isSome_iff_exists.1 (List.getLast?_isSome.2 fun empty => ?_)
  rw [List.filter_eq_nil_iff] at empty
  exact empty file member (beq_self_eq_true _)

theorem fileOf?_eq_none {settings : Settings} {disk : Disk} :
    fileOf? settings disk id = none ↔ id ∉ registeredIds settings disk := by
  unfold fileOf? lastNamed registeredIds
  rw [List.getLast?_eq_none_iff, List.filter_eq_nil_iff, List.mem_map]
  constructor
  · rintro other ⟨file, member, same⟩
    exact other file member (beq_iff_eq.2 same)
  · intro missing file member same
    exact missing ⟨file, member, beq_iff_eq.1 same⟩

end LastNamed

/-- The source of an object: in the project, or else in the store. -/
def sourceText (settings : Settings) (remote : Remote) (disk : Disk) (id : String) :
    Except Failure String :=
  match fileOf? settings disk id with
  | some file => readSource disk (settings.sources.join file)
  | none => (remote.fetch id disk).1

/-- The text of the document of an object. -/
def parsedText (settings : Settings) (remote : Remote) (disk : Disk) (id : String) :
    Except Failure String := do
  let source ← sourceText settings remote disk id
  let made ← remote.parse id source
  let document ← Document.ofText made (parsedPlace settings.target id).text
  document.render

/-- The text of the optimized document of an object. -/
def optimizedText (settings : Settings) (remote : Remote) (disk : Disk) (id : String) :
    Except Failure String := do
  let text ← parsedText settings remote disk id
  let document ← Document.ofText text (parsedPlace settings.target id).text
  let optimized ← Pass.optimized document
  optimized.render

/-- The names that a text of a document at a path refers to. -/
def namesOfText (place : Path) (text : String) : Except Failure (List String) :=
  (Document.ofText text place.text).map Document.foreignNames

/-- Whether the optimized document of an object can be made and reads back. -/
def Readable (settings : Settings) (remote : Remote) (disk : Disk) (id : String) : Prop :=
  ∃ text names, optimizedText settings remote disk id = .ok text ∧
    namesOfText (optimizedPlace settings.target id) text = .ok names

/-- The names that the optimized document of an object refers to, as it reads back. -/
def references (settings : Settings) (remote : Remote) (disk : Disk) (id : String) : List String :=
  match optimizedText settings remote disk id with
  | .error _ => []
  | .ok text =>
    match namesOfText (optimizedPlace settings.target id) text with
    | .ok names => names
    | .error _ => []

end EoAssembly.Build
