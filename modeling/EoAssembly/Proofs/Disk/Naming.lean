import EoAssembly.Proofs.Build.Names
import EoAssembly.Proofs.Catalog.Persist

/-!
Contract: a build gives every entry a name of its own.

The segments of a path that is written as a text hold no slash, and neither do those
of the paths that are made from it.  So a name that a path adds to a location is the
name of one entry, and a disk whose entries are well named stays so under every
operation, whether it succeeds or not.

Owns `Path.Slashless` with its laws, and `Disk.WellNamed` after each operation.
-/

namespace EoAssembly

open Path (Component IsName)

namespace Path

/-! ## Segments without slashes -/

/-- No segment of a path holds a slash. -/
def Slashless (path : Path) : Prop :=
  ∀ segment ∈ path.segments, ∀ c ∈ segment.toList, (c == '/') = false

theorem isText_iff {path : Path} : path.IsText ↔ path.segments ≠ [] ∧ path.Slashless := by
  constructor
  · exact fun written => ⟨written.segments_ne_nil, written.no_slash⟩
  · rintro ⟨some_, plain⟩
    obtain ⟨segments⟩ := path
    unfold IsText ofText Path.text Text.joinAll Text.splitAll
    rw [String.toList_ofList, Text.pieces_joined (by simpa using some_)]
    · simp
    · intro part member
      obtain ⟨segment, among, same⟩ := List.mem_map.1 member
      rw [← same]
      exact plain segment among

theorem slashless_ofText (text : String) : (ofText text).Slashless :=
  (isText_iff.1 (isText_ofText text)).2

theorem slashless_join {path next : Path} (first : path.Slashless) (second : next.Slashless) :
    (path.join next).Slashless := by
  intro segment member
  unfold join at member
  split at member
  · exact second segment member
  · split at member
    · rcases List.mem_append.1 member with before | behind
      · exact first segment (List.dropLast_subset _ before)
      · exact second segment behind
    · rcases List.mem_append.1 member with before | behind
      · exact first segment before
      · exact second segment behind

theorem slashless_child {path : Path} (plain : path.Slashless) (name : String) :
    (path.child name).Slashless :=
  slashless_join plain (slashless_ofText name)

theorem IsText.join {path next : Path} (first : path.IsText) (second : next.IsText) :
    (path.join next).IsText := by
  refine isText_iff.2 ⟨?_, slashless_join (isText_iff.1 first).2 (isText_iff.1 second).2⟩
  have some_ := second.segments_ne_nil
  unfold Path.join
  split
  · exact some_
  · split
    · exact List.append_ne_nil_of_right_ne_nil _ some_
    · exact List.append_ne_nil_of_right_ne_nil _ some_

theorem IsText.child {path : Path} (written : path.IsText) (name : String) :
    (path.child name).IsText :=
  written.join (isText_ofText name)

theorem slashless_stem {name : String} (plain : ∀ c ∈ name.toList, (c == '/') = false) :
    ∀ c ∈ (stem name).toList, (c == '/') = false := by
  unfold stem
  split
  · next after before found =>
    split
    · exact plain
    · intro c member
      rw [String.toList_ofList, List.mem_reverse] at member
      obtain ⟨separator, _, split⟩ := Text.cut_eq_some found
      refine plain c (List.mem_reverse.1 ?_)
      rw [split]
      simp [member]
  · exact plain

theorem mem_trimSegments {segments : List String} {segment : String}
    (member : segment ∈ trimSegments segments) : segment ∈ segments := by
  unfold trimSegments at member
  rw [List.mem_reverse] at member
  exact List.mem_reverse.1 ((List.dropWhile_sublist _).subset member)

theorem mem_ofParts {lead body : List String} {segment : String}
    (member : segment ∈ (ofParts lead body).segments) : segment = "" ∨ segment ∈ lead ++ body := by
  unfold ofParts at member
  split at member
  · split at member
    · exact Or.inl (List.mem_singleton.1 member)
    · split at member
      · exact Or.inl (by simpa using member)
      · exact Or.inr (by simpa using member)
  · exact Or.inr member

theorem mem_lead {path : Path} {segment : String} (member : segment ∈ path.lead) :
    segment = "" ∨ segment = "." := by
  unfold lead at member
  split at member
  · split at member
    · exact Or.inl (List.mem_singleton.1 member)
    · split at member
      · exact Or.inr (List.mem_singleton.1 member)
      · exact absurd member (by simp)
  · exact absurd member (by simp)

theorem slashless_withoutExtension {path : Path} (plain : path.Slashless) :
    path.withoutExtension.Slashless := by
  have inBody : ∀ segment ∈ trimSegments path.body, ∀ c ∈ segment.toList, (c == '/') = false :=
    fun segment member => plain segment (List.mem_of_mem_drop (mem_trimSegments member))
  unfold withoutExtension
  split
  · exact plain
  · next name isName =>
    have nameInBody : name ∈ trimSegments path.body := by
      unfold fileName? at isName
      split at isName
      · next last found =>
        split at isName
        · exact absurd isName (by simp)
        · rw [← Option.some.inj isName]
          exact List.mem_of_getLast? found
      · exact absurd isName (by simp)
    intro segment member
    rcases mem_ofParts member with empty | inside
    · rw [empty]
      simp
    · rcases List.mem_append.1 inside with inLead | behind
      · rcases mem_lead inLead with same | same
        · rw [same]
          simp
        · rw [same]
          simp
      · rcases List.mem_append.1 behind with before | last
        · exact inBody segment (List.dropLast_subset _ before)
        · rw [List.mem_singleton.1 last]
          exact slashless_stem (inBody name nameInBody)

/-! ## Names of components -/

theorem segment_of_component {path : Path} {name : String}
    (member : Component.named name ∈ path.components) : name ∈ path.segments ∧ Names name := by
  unfold components at member
  rcases List.mem_append.1 member with inLead | inBody
  · unfold leadComponents at inLead
    split at inLead
    · exact absurd inLead (by simp)
    · split at inLead
      · exact absurd (List.mem_singleton.1 inLead) (by simp)
      · exact absurd (List.mem_singleton.1 inLead) (by simp)
  · obtain ⟨segment, among, names⟩ := List.mem_filterMap.1 inBody
    have same : segment = name := by
      unfold componentOf at names
      split at names
      · exact absurd names (by simp)
      · split at names
        · exact absurd (Option.some.inj names) (by simp)
        · exact Component.named.inj (Option.some.inj names)
    rw [same] at names among
    exact ⟨List.mem_of_mem_drop among, names⟩

/-- The components of a path without slashes have names of single entries. -/
theorem Slashless.isName {path : Path} (plain : path.Slashless) {name : String}
    (member : Component.named name ∈ path.components) : IsName name := by
  obtain ⟨among, names⟩ := segment_of_component member
  exact ⟨names, plain name among⟩

/-- Names behind well named locations lead to well named locations. -/
theorem names_goalFrom {components : List Component}
    (plain : ∀ name, Component.named name ∈ components → IsName name) {location : Location}
    (here : ∀ name ∈ location, IsName name) : ∀ name ∈ goalFrom location components, IsName name := by
  induction components generalizing location with
  | nil => exact here
  | cons component rest inductionHypothesis =>
    have later : ∀ name, Component.named name ∈ rest → IsName name := fun name member =>
      plain name (List.mem_cons_of_mem component member)
    cases component with
    | root => exact inductionHypothesis later (by simp)
    | here => exact inductionHypothesis later here
    | up => exact inductionHypothesis later fun name member => here name (List.dropLast_subset _ member)
    | named first =>
      refine inductionHypothesis later fun name member => ?_
      rcases List.mem_append.1 member with before | last
      · exact here name before
      · rw [List.mem_singleton.1 last]
        exact plain first List.mem_cons_self

end Path

/-! ## Well named disks -/

namespace Disk

variable {disk next : Disk} {path source target : Path} {text : String} {location : Location}

theorem WellNamed.names (named : disk.WellNamed) (stands : disk.entryAt? location ≠ none) :
    ∀ name ∈ location, IsName name := by
  unfold entryAt? at stands
  split at stands
  · next root =>
    rw [root]
    simp
  · obtain ⟨entry, found⟩ := Option.ne_none_iff_exists'.1 stands
    obtain ⟨before, after, split, _⟩ := List.lookup_eq_some_iff.1 found
    exact named (location, entry) (by rw [split]; simp)

theorem WellNamed.current (named : disk.WellNamed) (sound : disk.Sound) :
    ∀ name ∈ disk.current, IsName name := by
  refine named.names ?_
  rw [directoryAt_iff.1 sound.current]
  simp

theorem WellNamed.goal (named : disk.WellNamed) (sound : disk.Sound) (plain : path.Slashless) :
    ∀ name ∈ path.goal disk.current, IsName name :=
  Path.names_goalFrom (fun _ member => plain.isName member) (named.current sound)

theorem WellNamed.takeOutage (named : disk.WellNamed) : disk.takeOutage.2.WellNamed := by
  unfold Disk.takeOutage
  split
  · exact named
  · exact named

theorem WellNamed.put (named : disk.WellNamed) {entry : Entry}
    (plain : ∀ name ∈ location, IsName name) : (disk.put location entry).WellNamed := by
  intro item member
  rcases List.mem_cons.1 member with here | kept
  · rw [here]
    exact plain
  · exact named item (List.mem_filter.1 kept).1

theorem WellNamed.erase (named : disk.WellNamed) : (disk.erase location).WellNamed :=
  fun item member => named item (List.mem_filter.1 member).1

theorem WellNamed.createAlong {components : List Component} (named : disk.WellNamed)
    (plain : ∀ name, Component.named name ∈ components → IsName name)
    (here : ∀ name ∈ location, IsName name) {outcome : Except Refusal Unit}
    (ran : disk.createAlong location components = (outcome, next)) : next.WellNamed := by
  induction components generalizing disk location with
  | nil =>
    rw [← (Prod.mk.inj ran).2]
    exact named
  | cons component rest inductionHypothesis =>
    have later : ∀ name, Component.named name ∈ rest → IsName name := fun name member =>
      plain name (List.mem_cons_of_mem component member)
    cases component with
    | root => exact inductionHypothesis named later (by simp) ran
    | here => exact inductionHypothesis named later here ran
    | up =>
      exact inductionHypothesis named later
        (fun name member => here name (List.dropLast_subset _ member)) ran
    | named first =>
      have behind : ∀ name ∈ location ++ [first], IsName name := by
        intro name member
        rcases List.mem_append.1 member with before | last
        · exact here name before
        · rw [List.mem_singleton.1 last]
          exact plain first List.mem_cons_self
      simp only [Disk.createAlong] at ran
      split at ran
      · exact inductionHypothesis named later behind ran
      · rw [← (Prod.mk.inj ran).2]
        exact named
      · split at ran
        · exact inductionHypothesis (named.put behind) later behind ran
        · rw [← (Prod.mk.inj ran).2]
          exact named

theorem WellNamed.createParent (named : disk.WellNamed) (sound : disk.Sound)
    (plain : path.Slashless) (ends : path.EndsInName) {outcome : Except Refusal Unit}
    (ran : disk.createParent path = (outcome, next)) : next.WellNamed := by
  obtain ⟨name, components⟩ := ends.components_eq
  rw [createParent_eq] at ran
  refine named.createAlong (fun other member => plain.isName ?_) (named.current sound) ran
  rw [components]
  exact List.mem_append_left _ member

theorem WellNamed.writeText (named : disk.WellNamed) (sound : disk.Sound) (plain : path.Slashless)
    {outcome : Except Refusal Unit} (ran : disk.writeText path text = (outcome, next)) :
    next.WellNamed := by
  cases outcome with
  | error refusal =>
    rw [writeText_failed ran]
    exact named.takeOutage
  | ok value =>
    obtain ⟨location, writable, result⟩ := writeText_eq_ok ran
    rw [result, (writableAt_ok writable).2.2.1, takeOutage_current]
    exact named.takeOutage.put (named.goal sound plain)

theorem WellNamed.replace (named : disk.WellNamed) (sound : disk.Sound) (plain : target.Slashless)
    {outcome : Except Refusal Unit} (ran : disk.replace source target = (outcome, next)) :
    next.WellNamed := by
  cases outcome with
  | error refusal =>
    rw [replace_failed ran]
    exact named.takeOutage
  | ok value =>
    obtain ⟨_, _, location, _, _, writable, result⟩ := replace_eq_ok ran
    rw [result, (writableAt_ok writable).2.2.1, takeOutage_current]
    exact named.takeOutage.erase.put (named.goal sound plain)

theorem WellNamed.writeBelow (named : disk.WellNamed) (sound : disk.Sound) (plain : path.Slashless)
    (ends : path.EndsInName) {outcome : Except Failure Unit}
    (ran : Document.writeBelow disk path text = (outcome, next)) : next.WellNamed := by
  cases Document.writeBelow_iff.1 ran with
  | unprepared created => exact named.createParent sound plain ends created
  | unwritten created wrote | written created wrote =>
    have first := named.createParent sound plain ends created
    exact first.writeText (touches_createParent sound created).sound plain wrote

theorem WellNamed.persist {catalog : Catalog} (named : disk.WellNamed) (sound : disk.Sound)
    (plain : catalog.path.Slashless) (ends : catalog.path.EndsInName)
    {outcome : Except Failure Unit} (ran : catalog.persist disk = (outcome, next)) :
    next.WellNamed := by
  have plainSibling : catalog.sibling.Slashless := Path.slashless_ofText _
  cases Catalog.persist_iff.1 ran with
  | unprepared created => exact named.createParent sound plain ends created
  | unwritten created wrote =>
    have first := named.createParent sound plain ends created
    exact first.writeText (touches_createParent sound created).sound plainSibling wrote
  | unmoved created wrote moved | replaced created wrote moved =>
    have first := named.createParent sound plain ends created
    have prepared := (touches_createParent sound created).sound
    have second := first.writeText prepared plainSibling wrote
    exact second.replace (touches_writeText prepared wrote).sound plain moved

end Disk

end EoAssembly
