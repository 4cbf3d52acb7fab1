import EoAssembly.Catalog.Codec
import EoAssembly.Proofs.Json.RoundTrip
import EoAssembly.Proofs.Path

/-!
Contract: the text of a catalog reads back as its records.

Every path of a record must be the one written as its text.  A record that counts
more names than a machine word holds is refused; all others read back unchanged.

Owns `Record.Textual`, `Record.Countable`, and the round trip of records.
-/

namespace EoAssembly.Record

open Json (Value)

variable {record next : Record} {key : String}

/-- Every path of a record is the one written as its text. -/
structure Textual (record : Record) : Prop where
  source : ∀ path ∈ record.source, path.IsText
  xmir : ∀ path ∈ record.xmir, path.IsText
  optimized : ∀ path ∈ record.optimized, path.IsText
  discoveredAt : ∀ path ∈ record.discoveredAt, path.IsText

/-- The names found in an object can be counted in a machine word. -/
def Countable (record : Record) : Prop := ∀ count ∈ record.discovered, count < UInt64.size

instance (record : Record) : Decidable record.Countable :=
  inferInstanceAs (Decidable (∀ count ∈ record.discovered, count < UInt64.size))

/-! ## Members -/

theorem withFields?_append (record : Record) (first second : List (String × Value)) :
    record.withFields? (first ++ second) =
      (record.withFields? first).bind fun next => next.withFields? second := by
  induction first generalizing record with
  | nil => rfl
  | cons member rest inductionHypothesis =>
    obtain ⟨name, value⟩ := member
    rw [List.cons_append, withFields?, withFields?, Option.bind_assoc]
    exact Option.bind_congr fun next _ => inductionHypothesis next

theorem withFields?_single (record : Record) (name : String) (value : Value) :
    record.withFields? [(name, value)] = record.withField? name value := by
  rw [withFields?]
  cases record.withField? name value <;> rfl

/-- A text that is set is read into its field, and one that is not leaves the field unset. -/
theorem withFields?_textMember (put : Option String → Record) (value : Option String)
    (reads : ∀ text, record.withField? key (.string text) = some (put (some text)))
    (unset : record = put none) :
    record.withFields? (textMember key value) = some (put value) := by
  cases value with
  | none => exact congrArg some unset
  | some text =>
    rw [textMember, withFields?_single]
    exact reads text

theorem withFields?_pathMember (put : Option Path → Record) (value : Option Path)
    (reads : ∀ text, record.withField? key (.string text) = some (put (some (.ofText text))))
    (unset : record = put none) (written : ∀ path ∈ value, path.IsText) :
    record.withFields? (pathMember key value) = some (put value) := by
  have parsed : record.withFields? (textMember key (value.map Path.text)) =
      some (put ((value.map Path.text).map Path.ofText)) :=
    withFields?_textMember (fun text => put (text.map Path.ofText)) _ reads unset
  unfold pathMember
  rw [parsed]
  cases value with
  | none => rfl
  | some path =>
    have same : Path.ofText path.text = path := written path rfl
    simp only [Option.map_some, same]

/-- The member for a count that is set. -/
def countMember (value : Option Nat) : List (String × Value) :=
  match value with
  | some count => [("discovered", .number (toString count))]
  | none => []

/-- The member for the mark of a pulled source. -/
def pulledMember (value : Bool) : List (String × Value) :=
  if value then [("pulled", .bool true)] else []

theorem members_eq (record : Record) :
    record.members = [("id", .string record.id)] ++ pathMember "source" record.source
      ++ pathMember "xmir" record.xmir ++ pathMember "optimized" record.optimized
      ++ pathMember "discovered-at" record.discoveredAt ++ countMember record.discovered
      ++ pulledMember record.pulled ++ textMember "version" record.version
      ++ textMember "hash" record.hash ++ textMember "status" record.status := rfl

/-- A count is read unless it is too large. -/
theorem withFields?_count (value : Option Nat) (unset : record = { record with discovered := none }) :
    record.withFields? (countMember value) =
      if ∀ count ∈ value, count < UInt64.size then some { record with discovered := value } else none := by
  cases value with
  | none => simpa [countMember, withFields?] using unset
  | some count =>
    simp only [countMember, withFields?_single, withField?, Value.optionalNat?,
      Json.natural?_toString]
    by_cases small : count < UInt64.size
    · simp [small]
    · simp [small]

theorem withFields?_pulled (value : Bool) (unset : record = { record with pulled := false }) :
    record.withFields? (pulledMember value) = some { record with pulled := value } := by
  cases value with
  | false => exact congrArg some unset
  | true => rfl

theorem withFields?_members (textual : record.Textual) :
    (ofId "").withFields? record.members = if record.Countable then some record else none := by
  obtain ⟨id, source, xmir, optimized, discoveredAt, discovered, pulled, version, hash, status⟩ :=
    record
  have counted : Countable ⟨id, source, xmir, optimized, discoveredAt, discovered, pulled, version,
      hash, status⟩ ↔ ∀ count ∈ discovered, count < UInt64.size := Iff.rfl
  simp only [counted, members_eq, withFields?_append, withFields?_single]
  have first : (ofId "").withField? "id" (.string id) = some { id := id } := rfl
  rw [first, Option.bind_some,
    withFields?_pathMember (fun value => ⟨id, value, none, none, none, none, false, none, none, none⟩)
      source (fun _ => rfl) rfl textual.source, Option.bind_some,
    withFields?_pathMember
      (fun value => ⟨id, source, value, none, none, none, false, none, none, none⟩)
      xmir (fun _ => rfl) rfl textual.xmir, Option.bind_some,
    withFields?_pathMember
      (fun value => ⟨id, source, xmir, value, none, none, false, none, none, none⟩)
      optimized (fun _ => rfl) rfl textual.optimized, Option.bind_some,
    withFields?_pathMember
      (fun value => ⟨id, source, xmir, optimized, value, none, false, none, none, none⟩)
      discoveredAt (fun _ => rfl) rfl textual.discoveredAt, Option.bind_some,
    withFields?_count discovered rfl]
  by_cases small : ∀ count ∈ discovered, count < UInt64.size
  · rw [if_pos small, if_pos small, Option.bind_some, withFields?_pulled pulled rfl,
      Option.bind_some,
      withFields?_textMember
        (fun value => ⟨id, source, xmir, optimized, discoveredAt, discovered, pulled, value, none, none⟩)
        version (fun _ => rfl) rfl, Option.bind_some,
      withFields?_textMember
        (fun value =>
          ⟨id, source, xmir, optimized, discoveredAt, discovered, pulled, version, value, none⟩)
        hash (fun _ => rfl) rfl, Option.bind_some,
      withFields?_textMember
        (fun value =>
          ⟨id, source, xmir, optimized, discoveredAt, discovered, pulled, version, hash, value⟩)
        status (fun _ => rfl) rfl]
  · rw [if_neg small, if_neg small]
    rfl

/-! ## Records -/

theorem keys_textMember (key : String) (value : Option String) :
    ((textMember key value).map Prod.fst).Sublist [key] := by
  cases value with
  | none => exact List.nil_sublist _
  | some text => exact List.Sublist.refl _

/-- The members of a record are named as its fields, in the order of the fields. -/
theorem keys_members (record : Record) : (record.members.map Prod.fst).Sublist fieldNames := by
  have paths : ∀ key value, ((pathMember key value).map Prod.fst).Sublist [key] :=
    fun key value => keys_textMember key _
  have counts : ((countMember record.discovered).map Prod.fst).Sublist ["discovered"] := by
    cases record.discovered with
    | none => exact List.nil_sublist _
    | some count => exact List.Sublist.refl _
  have marks : ((pulledMember record.pulled).map Prod.fst).Sublist ["pulled"] := by
    cases record.pulled with
    | false => exact List.nil_sublist _
    | true => exact List.Sublist.refl _
  have named : ([("id", Value.string record.id)].map Prod.fst).Sublist ["id"] := List.Sublist.refl _
  simp only [members_eq, List.map_append]
  exact ((((((((named.append (paths _ _)).append (paths _ _)).append (paths _ _)).append
    (paths _ _)).append counts).append marks).append (keys_textMember _ _)).append
      (keys_textMember _ _)).append (keys_textMember _ _)

theorem fieldsOnce_of_nodup {found : List (String × Value)} (distinct : (found.map Prod.fst).Nodup) :
    fieldsOnce found = true := by
  induction found with
  | nil => rfl
  | cons member rest inductionHypothesis =>
    obtain ⟨name, value⟩ := member
    obtain ⟨here, later⟩ := List.nodup_cons.1 distinct
    have alone : (rest.any fun other => other.1 == name) = false := by
      rw [List.any_eq_false]
      intro other among same
      exact here (List.mem_map.2 ⟨other, among, beq_iff_eq.1 same⟩)
    simp only [fieldsOnce, alone, inductionHypothesis later, Bool.and_false, Bool.not_false,
      Bool.and_self]

/-- A record reads back, unless it counts too much. -/
theorem ofJson?_toJson (textual : record.Textual) :
    ofJson? record.toJson = if record.Countable then some record else none := by
  have once : fieldsOnce record.members = true :=
    fieldsOnce_of_nodup ((keys_members record).nodup (by decide))
  have named : (record.members.any fun member => member.1 == "id") = true := by
    rw [members]
    rfl
  unfold ofJson? toJson
  simp only [once, named, Bool.and_self, if_true]
  exact withFields?_members textual

theorem listOfJson?_toJson {records : List Record} (textual : ∀ record ∈ records, record.Textual) :
    listOfJson? (records.map toJson) =
      if ∀ record ∈ records, record.Countable then some records else none := by
  induction records with
  | nil => rfl
  | cons first rest inductionHypothesis =>
    have later := inductionHypothesis fun record member => textual record (List.mem_cons_of_mem first member)
    rw [List.map_cons, listOfJson?, ofJson?_toJson (textual first List.mem_cons_self), later]
    by_cases here : first.Countable
    · by_cases others : ∀ record ∈ rest, record.Countable
      · have all : ∀ record ∈ first :: rest, record.Countable := List.forall_mem_cons.2 ⟨here, others⟩
        rw [if_pos here, if_pos others, if_pos all]
      · have notAll : ¬∀ record ∈ first :: rest, record.Countable := fun all =>
          others (List.forall_mem_cons.1 all).2
        rw [if_pos here, if_neg others, if_neg notAll]
    · have notAll : ¬∀ record ∈ first :: rest, record.Countable := fun all =>
        here (List.forall_mem_cons.1 all).1
      rw [if_neg here, if_neg notAll]

/-! ## Catalog texts -/

theorem faithfulMembers_append (first second : List (String × Value)) :
    Json.FaithfulMembers (first ++ second) ↔
      Json.FaithfulMembers first ∧ Json.FaithfulMembers second := by
  induction first with
  | nil => exact (Iff.of_eq (true_and _)).symm
  | cons member rest inductionHypothesis =>
    rw [List.cons_append, Json.FaithfulMembers, Json.FaithfulMembers, inductionHypothesis, and_assoc]

theorem faithful_members (record : Record) : Json.FaithfulMembers record.members := by
  have texts : ∀ key value, Json.FaithfulMembers (textMember key value) := by
    intro key value
    cases value with
    | none => exact trivial
    | some text => exact ⟨trivial, trivial⟩
  have paths : ∀ key value, Json.FaithfulMembers (pathMember key value) := fun key value =>
    texts key _
  have counts : Json.FaithfulMembers (countMember record.discovered) := by
    cases record.discovered with
    | none => exact trivial
    | some count => exact ⟨⟨count, rfl⟩, trivial⟩
  have marks : Json.FaithfulMembers (pulledMember record.pulled) := by
    cases record.pulled with
    | false => exact trivial
    | true => exact ⟨trivial, trivial⟩
  have named : Json.FaithfulMembers [("id", .string record.id)] := ⟨trivial, trivial⟩
  simp only [members_eq, faithfulMembers_append]
  exact ⟨⟨⟨⟨⟨⟨⟨⟨⟨named, paths _ _⟩, paths _ _⟩, paths _ _⟩, paths _ _⟩, counts⟩, marks⟩, texts _ _⟩,
    texts _ _⟩, texts _ _⟩

/-- The text of records reads back as them, unless one of them counts too much. -/
theorem allOfText?_renderAll {records : List Record} (textual : ∀ record ∈ records, record.Textual) :
    allOfText? (renderAll records) =
      if ∀ record ∈ records, record.Countable then some records else none := by
  have faithful : (Value.array (records.map toJson)).Faithful := by
    change Json.FaithfulItems (records.map toJson)
    induction records with
    | nil => exact trivial
    | cons first rest inductionHypothesis =>
      exact ⟨faithful_members first,
        inductionHypothesis fun record member => textual record (List.mem_cons_of_mem first member)⟩
  unfold allOfText? renderAll
  rw [Value.ofText?_render faithful]
  exact listOfJson?_toJson textual

end EoAssembly.Record
