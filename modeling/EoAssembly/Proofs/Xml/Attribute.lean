import EoAssembly.Document.Basic

/-!
Contract: reading an attribute after one was set or removed.

An attribute is found by its name in no namespace.  Setting one changes what is
read under its own key only, and removing one leaves nothing to read there.

Owns the reading laws of `Tag.set` and `Tag.remove`.  Neither changes the name
of an element, so objects stay objects.
-/

namespace EoAssembly.Xml.Tag

/-- A name has one plain spelling. -/
theorem isPlain_unique {name : Name} {key other : String}
    (first : name.isPlain key = true) (second : name.isPlain other = true) : key = other := by
  simp only [Name.isPlain, Bool.and_eq_true, beq_iff_eq] at first second
  exact first.2.symm.trans second.2

theorem isPlain_apart {name : Name} {key other : String} (different : key ≠ other)
    (found : name.isPlain key = true) : name.isPlain other = false := by
  rw [Bool.eq_false_iff]
  intro twice
  exact different (isPlain_unique found twice)

theorem find?_setIn_same (key value : String) (attributes : List Attribute) :
    ((setIn key value attributes).find? fun item => item.name.isPlain key).map Attribute.value =
      some value := by
  induction attributes with
  | nil => simp [setIn, Name.plain, Name.isPlain]
  | cons item rest inductionHypothesis =>
    by_cases here : item.name.isPlain key = true
    · simp [setIn, here]
    · simpa [setIn, here] using inductionHypothesis

theorem find?_setIn_other {key other : String} (value : String) (different : key ≠ other)
    (attributes : List Attribute) :
    ((setIn key value attributes).find? fun item => item.name.isPlain other).map Attribute.value =
      (attributes.find? fun item => item.name.isPlain other).map Attribute.value := by
  induction attributes with
  | nil => simp [setIn, Name.plain, Name.isPlain, different]
  | cons item rest inductionHypothesis =>
    by_cases here : item.name.isPlain key = true
    · simp [setIn, here, isPlain_apart different here]
    · by_cases there : item.name.isPlain other = true
      · simp [setIn, here, there]
      · simpa [setIn, here, there] using inductionHypothesis

@[simp] theorem get?_set_same (tag : Tag) (key value : String) :
    (tag.set key value).get? key = some value :=
  find?_setIn_same key value tag.attributes

theorem get?_set_other (tag : Tag) {key other : String} (value : String)
    (different : key ≠ other) : (tag.set key value).get? other = tag.get? other :=
  find?_setIn_other value different tag.attributes

@[simp] theorem get?_remove_same (tag : Tag) (key : String) : (tag.remove key).get? key = none := by
  have gone : ((tag.attributes.filter fun item => !item.name.isPlain key).find?
      fun item => item.name.isPlain key) = none := by
    rw [List.find?_eq_none]
    intro item member
    have kept := (List.mem_filter.1 member).2
    simpa using kept
  simp only [get?, remove, gone, Option.map_none]

theorem get?_remove_other (tag : Tag) {key other : String} (different : key ≠ other) :
    (tag.remove key).get? other = tag.get? other := by
  unfold get? remove
  rw [List.find?_filter]
  congr 2
  funext item
  by_cases found : item.name.isPlain other = true
  · simp [found, isPlain_apart different.symm found]
  · simp [found]

@[simp] theorem has_set_same (tag : Tag) (key value : String) :
    (tag.set key value).has key = true := by
  simp [has]

theorem has_set_other (tag : Tag) {key other : String} (value : String)
    (different : key ≠ other) : (tag.set key value).has other = tag.has other := by
  rw [has, get?_set_other tag value different, has]

@[simp] theorem has_remove_same (tag : Tag) (key : String) : (tag.remove key).has key = false := by
  simp [has]

theorem has_remove_other (tag : Tag) {key other : String} (different : key ≠ other) :
    (tag.remove key).has other = tag.has other := by
  rw [has, get?_remove_other tag different, has]

@[simp] theorem isNamed_set (tag : Tag) (key value label : String) :
    (tag.set key value).isNamed label = tag.isNamed label := rfl

@[simp] theorem isNamed_remove (tag : Tag) (key label : String) :
    (tag.remove key).isNamed label = tag.isNamed label := rfl

/-- The list of top-level objects is itself no object. -/
theorem objects_not_object {tag : Tag} (found : tag.isNamed objectsLabel = true) :
    tag.isNamed objectLabel = false :=
  isPlain_apart (by decide) found

end EoAssembly.Xml.Tag
