import EoAssembly.Path

/-!
Contract: the components of paths that are built from names.

A segment names an entry when it is one component and nothing but a name.  Joining
a path with names puts them behind its components, the parent of a path lacks its
last component, and a text behind a path goes to its last name.

Owns `Path.Names`, `Path.IsName`, `Path.IsText`, and these laws.
-/

namespace EoAssembly

/-! ## Pieces -/

namespace Text

theorem pieces_of_none {separates : Char → Bool} {text : List Char}
    (plain : ∀ c ∈ text, separates c = false) : pieces separates text = [text] := by
  induction text with
  | nil => rfl
  | cons c rest inductionHypothesis =>
    have here := plain c List.mem_cons_self
    have later := inductionHypothesis fun other among => plain other (List.mem_cons_of_mem c among)
    simp [pieces, here, later]

theorem pieces_append {separates : Char → Bool} {part : List Char} {separator : Char}
    (plain : ∀ c ∈ part, separates c = false) (found : separates separator = true)
    (rest : List Char) :
    pieces separates (part ++ separator :: rest) = part :: pieces separates rest := by
  induction part with
  | nil => simp [pieces, found]
  | cons c others inductionHypothesis =>
    have here := plain c List.mem_cons_self
    have later := inductionHypothesis fun other among => plain other (List.mem_cons_of_mem c among)
    simp [pieces, here, later]

theorem pieces_plain {separates : Char → Bool} (text : List Char) :
    ∀ part ∈ pieces separates text, ∀ c ∈ part, separates c = false := by
  induction text with
  | nil => simp [pieces]
  | cons c rest inductionHypothesis =>
    intro part member d among
    by_cases found : separates c = true
    · simp only [pieces, found, if_true, List.mem_cons] at member
      rcases member with empty | later
      · rw [empty] at among
        exact absurd among (by simp)
      · exact inductionHypothesis part later d among
    · simp only [pieces, found] at member
      cases parts : pieces separates rest with
      | nil => exact absurd parts (pieces_ne_nil separates rest)
      | cons first others =>
        rw [parts] at member inductionHypothesis
        rcases List.mem_cons.1 member with own | later
        · rw [own] at among
          rcases List.mem_cons.1 among with here | inFirst
          · rw [here]
            simpa using found
          · exact inductionHypothesis first List.mem_cons_self d inFirst
        · exact inductionHypothesis part (List.mem_cons_of_mem first later) d among

theorem mem_of_mem_pieces {separates : Char → Bool} {text part : List Char} {c : Char}
    (member : part ∈ pieces separates text) (inside : c ∈ part) : c ∈ text := by
  induction text generalizing part with
  | nil =>
    rw [List.mem_singleton.1 member] at inside
    exact absurd inside (by simp)
  | cons d rest inductionHypothesis =>
    by_cases found : separates d = true
    · simp only [pieces, found, if_true, List.mem_cons] at member
      rcases member with empty | later
      · rw [empty] at inside
        exact absurd inside (by simp)
      · exact List.mem_cons_of_mem d (inductionHypothesis later inside)
    · simp only [pieces, found] at member
      cases parts : pieces separates rest with
      | nil => exact absurd parts (pieces_ne_nil separates rest)
      | cons first others =>
        rw [parts] at member inductionHypothesis
        rcases List.mem_cons.1 member with own | later
        · rw [own] at inside
          rcases List.mem_cons.1 inside with here | inFirst
          · rw [here]
            exact List.mem_cons_self
          · exact List.mem_cons_of_mem d (inductionHypothesis List.mem_cons_self inFirst)
        · exact List.mem_cons_of_mem d
            (inductionHypothesis (List.mem_cons_of_mem first later) inside)

/-- Parts without a separator are the pieces between the separators that join them. -/
theorem pieces_joined {separator : Char} {parts : List (List Char)} (some_ : parts ≠ [])
    (plain : ∀ part ∈ parts, ∀ c ∈ part, (c == separator) = false) :
    pieces (· == separator) (joined separator parts) = parts := by
  induction parts with
  | nil => exact absurd rfl some_
  | cons part others inductionHypothesis =>
    have here := plain part List.mem_cons_self
    cases others with
    | nil => exact pieces_of_none here
    | cons second more =>
      have later := inductionHypothesis (by simp)
        fun other among => plain other (List.mem_cons_of_mem part among)
      simp only [joined]
      rw [pieces_append here (by simp), later]

theorem mem_joined {separator c : Char} {parts : List (List Char)}
    (member : c ∈ joined separator parts) : c = separator ∨ ∃ part ∈ parts, c ∈ part := by
  induction parts with
  | nil => exact absurd member (by simp [joined])
  | cons part others inductionHypothesis =>
    cases others with
    | nil => exact Or.inr ⟨part, List.mem_singleton_self part, member⟩
    | cons second more =>
      simp only [joined, List.mem_append, List.mem_cons] at member inductionHypothesis
      rcases member with here | same | later
      · exact Or.inr ⟨part, List.mem_cons_self, here⟩
      · exact Or.inl same
      · rcases inductionHypothesis later with same | ⟨other, among, inside⟩
        · exact Or.inl same
        · exact Or.inr ⟨other, List.mem_cons.2 (Or.inr (List.mem_cons.2 among)), inside⟩

theorem joined_append_last (separator : Char) (parts : List (List Char)) (last tail : List Char) :
    joined separator (parts ++ [last]) ++ tail = joined separator (parts ++ [last ++ tail]) := by
  induction parts with
  | nil => rfl
  | cons part others inductionHypothesis =>
    cases others with
    | nil => simp [joined]
    | cons second more =>
      simp only [List.cons_append, joined, List.append_assoc] at inductionHypothesis ⊢
      rw [inductionHypothesis]

end Text

namespace Path

/-! ## Names -/

/-- A segment that is one component and nothing but a name. -/
def Names (segment : String) : Prop := componentOf segment = some (.named segment)

instance (segment : String) : Decidable (Names segment) := inferInstanceAs (Decidable (_ = _))

theorem names_iff {segment : String} :
    Names segment ↔ silent segment = false ∧ segment ≠ ".." := by
  unfold Names componentOf
  by_cases quiet : silent segment = true
  · simp [quiet]
  · by_cases up : segment = ".."
    · simp [up]
    · simp [quiet, up]

theorem Names.ne_empty {segment : String} (names : Names segment) : segment ≠ "" := by
  intro empty
  rw [empty] at names
  exact absurd names (by decide)

theorem Names.ne_dot {segment : String} (names : Names segment) : segment ≠ "." := by
  intro dot
  rw [dot] at names
  exact absurd names (by decide)

/-- A text that is a name of one entry. -/
structure IsName (name : String) : Prop where
  names : Names name
  noSlash : ∀ c ∈ name.toList, (c == '/') = false

instance (name : String) : Decidable (IsName name) :=
  have := List.decidableBAll (fun c => (c == '/') = false) name.toList
  decidable_of_iff (Names name ∧ ∀ c ∈ name.toList, (c == '/') = false)
    ⟨fun parts => ⟨parts.1, parts.2⟩, fun plain => ⟨plain.names, plain.noSlash⟩⟩

theorem filterMap_names {names : List String} (plain : ∀ name ∈ names, Names name) :
    names.filterMap componentOf = names.map Component.named := by
  induction names with
  | nil => rfl
  | cons name rest inductionHypothesis =>
    have here : componentOf name = some (.named name) := plain name List.mem_cons_self
    rw [List.filterMap_cons, here, List.map_cons,
      inductionHypothesis fun other among => plain other (List.mem_cons_of_mem name among)]

theorem ofText_name {name : String} (plain : IsName name) : ofText name = ⟨[name]⟩ := by
  unfold ofText Text.splitAll
  rw [Text.pieces_of_none plain.noSlash]
  simp

/-- The segments of a path that names are put behind. -/
def base (path : Path) : List String :=
  if path.segments.getLast? = some "" then path.segments.dropLast else path.segments

theorem join_names {names : List String} (path : Path)
    (plain : ∀ name ∈ names, Names name) :
    path.join ⟨names⟩ = ⟨path.base ++ names⟩ := by
  have relative : (⟨names⟩ : Path).isAbsolute = false := by
    unfold isAbsolute
    split
    · next name second more same =>
      have member : name ∈ names := by
        rw [show names = name :: second :: more from same]
        exact List.mem_cons_self
      simpa using (plain name member).ne_empty
    · rfl
  unfold join base
  rw [relative]
  simp only [Bool.false_eq_true, if_false]
  split <;> rfl

theorem child_name {name : String} (path : Path) (plain : IsName name) :
    path.child name = ⟨path.base ++ [name]⟩ := by
  unfold child
  rw [ofText_name plain]
  exact join_names path (by simpa using plain.names)

/-- What the first segment of a path stands for. -/
def firstComponents (head : String) : List Component :=
  if head = "" then [.root] else if head = "." then [.here] else (componentOf head).toList

theorem components_cons {head : String} {rest : List String} (open_ : head = "" → rest ≠ []) :
    (⟨head :: rest⟩ : Path).components = firstComponents head ++ rest.filterMap componentOf := by
  unfold components body lead firstComponents
  by_cases empty : head = ""
  · simp [empty, open_ empty, leadComponents]
  · by_cases dot : head = "."
    · simp [dot, leadComponents]
    · have split : (head :: rest).filterMap componentOf =
          (componentOf head).toList ++ rest.filterMap componentOf := by
        rw [List.filterMap_cons]
        cases componentOf head <;> rfl
      simp [empty, dot, leadComponents, split]

theorem components_names {names : List String} (plain : ∀ name ∈ names, Names name) :
    (⟨names⟩ : Path).components = names.map Component.named := by
  cases names with
  | nil => rfl
  | cons name rest =>
    have here := plain name List.mem_cons_self
    rw [components_cons fun empty => absurd empty here.ne_empty,
      filterMap_names fun other among => plain other (List.mem_cons_of_mem name among)]
    have first : componentOf name = some (.named name) := here
    simp [firstComponents, here.ne_empty, here.ne_dot, first]

/-- A name and segments behind a path are the last components of the result. -/
theorem components_base_cons {first : String} (path : Path) (plain : Names first)
    (others : List String) : (⟨path.base ++ first :: others⟩ : Path).components =
      path.components ++ .named first :: others.filterMap componentOf := by
  have alone : (⟨first :: others⟩ : Path).components =
      .named first :: others.filterMap componentOf := by
    have here : componentOf first = some (.named first) := plain
    rw [components_cons fun empty => absurd empty plain.ne_empty]
    simp [firstComponents, plain.ne_empty, plain.ne_dot, here]
  have behind : (first :: others).filterMap componentOf =
      .named first :: others.filterMap componentOf := by
    have here : componentOf first = some (.named first) := plain
    rw [List.filterMap_cons, here]
  obtain ⟨segments⟩ := path
  unfold base
  cases segments with
  | nil => exact alone
  | cons head rest =>
    by_cases closed : (head :: rest).getLast? = some ""
    · simp only [closed, if_true]
      cases rest with
      | nil =>
        have empty : head = "" := by simpa using closed
        rw [empty]
        exact alone
      | cons second more =>
        -- the empty last segment names nothing
        obtain ⟨before, same⟩ : ∃ before, second :: more = before ++ [""] := by
          rw [List.getLast?_cons_cons] at closed
          exact List.getLast?_eq_some_iff.1 closed
        have cut : (head :: second :: more).dropLast = head :: before := by
          rw [same, ← List.cons_append, List.dropLast_concat]
        have silentEmpty : [""].filterMap componentOf = [] := by decide
        rw [cut, same, List.cons_append, components_cons fun _ => by simp,
          components_cons fun _ => by simp]
        simp only [List.filterMap_append, behind, silentEmpty, List.append_nil,
          List.append_assoc]
    · simp only [closed, if_false]
      have open_ : head = "" → rest ≠ [] := by
        intro empty alone
        rw [empty, alone] at closed
        exact closed rfl
      rw [List.cons_append, components_cons fun _ => by simp, components_cons open_]
      simp only [List.filterMap_append, behind, List.append_assoc]

/-- Names behind a path are the last components of the result. -/
theorem components_base_append {names : List String} (path : Path) (some_ : names ≠ [])
    (plain : ∀ name ∈ names, Names name) :
    (⟨path.base ++ names⟩ : Path).components =
      path.components ++ names.map Component.named := by
  obtain ⟨first, others, split⟩ := List.exists_cons_of_ne_nil some_
  rw [split] at plain ⊢
  rw [components_base_cons path (plain first List.mem_cons_self),
    filterMap_names fun name member => plain name (List.mem_cons_of_mem first member)]
  rfl

theorem components_join_names {names : List String} (path : Path) (some_ : names ≠ [])
    (plain : ∀ name ∈ names, Names name) :
    (path.join ⟨names⟩).components = path.components ++ names.map Component.named := by
  rw [join_names path plain, components_base_append path some_ plain]

theorem components_child {name : String} (path : Path) (plain : IsName name) :
    (path.child name).components = path.components ++ [.named name] := by
  rw [child_name path plain]
  exact components_base_append path (by simp) (by simpa using plain.names)

/-- A path that ends in a name. -/
def EndsInName (path : Path) : Prop :=
  ∃ before name, path.segments = before ++ [name] ∧ Names name

theorem endsInName_append {names : List String} (segments : List String) (some_ : names ≠ [])
    (plain : ∀ name ∈ names, Names name) : (⟨segments ++ names⟩ : Path).EndsInName := by
  refine ⟨segments ++ names.dropLast, names.getLast some_, ?_, plain _ (List.getLast_mem some_)⟩
  rw [List.append_assoc, List.dropLast_concat_getLast]

theorem endsInName_child {name : String} (path : Path) (plain : IsName name) :
    (path.child name).EndsInName := by
  rw [child_name path plain]
  exact endsInName_append path.base (by simp) (by simpa using plain.names)

/-- Behind a name nothing is left out. -/
theorem EndsInName.base_eq {path : Path} (ends : path.EndsInName) : path.base = path.segments := by
  obtain ⟨before, name, split, plain⟩ := ends
  unfold base
  rw [split, List.getLast?_concat, if_neg]
  exact fun empty => plain.ne_empty (Option.some.inj empty)

theorem EndsInName.not_empty {path : Path} (ends : path.EndsInName) : path.isEmpty = false := by
  obtain ⟨before, name, split, plain⟩ := ends
  unfold isEmpty
  rw [split, beq_eq_false_iff_ne]
  intro empty
  have last := congrArg List.getLast? empty
  rw [List.getLast?_concat] at last
  exact plain.ne_empty (Option.some.inj last)

/-- A path leads to files as well exactly when it ends in a name. -/
theorem endsInName_iff {path : Path} : path.EndsInName ↔ path.endsAtDirectory = false := by
  unfold EndsInName endsAtDirectory
  constructor
  · rintro ⟨before, name, split, plain⟩
    obtain ⟨loud, notUp⟩ := names_iff.1 plain
    rw [split, List.getLast?_concat]
    simp [loud, notUp]
  · intro open_
    cases last : path.segments.getLast? with
    | none => simp [last] at open_
    | some name =>
      rw [last] at open_
      simp only [Bool.or_eq_false_iff, beq_eq_false_iff_ne] at open_
      obtain ⟨before, split⟩ := List.getLast?_eq_some_iff.1 last
      exact ⟨before, name, split, names_iff.2 open_⟩

/-! ## Parents -/

theorem filterMap_trimSegments (segments : List String) :
    (trimSegments segments).filterMap componentOf = segments.filterMap componentOf := by
  have dropped : ∀ others : List String,
      (others.dropWhile silent).filterMap componentOf = others.filterMap componentOf := by
    intro others
    induction others with
    | nil => rfl
    | cons segment rest inductionHypothesis =>
      by_cases quiet : silent segment = true
      · have none : componentOf segment = none := by simp [componentOf, quiet]
        rw [List.dropWhile_cons, if_pos quiet, inductionHypothesis, List.filterMap_cons, none]
      · rw [List.dropWhile_cons, if_neg quiet]
  unfold trimSegments
  rw [List.filterMap_reverse, dropped, ← List.filterMap_reverse, List.reverse_reverse]

theorem trimSegments_name (segments : List String) {name : String} (plain : Names name) :
    trimSegments (segments ++ [name]) = segments ++ [name] := by
  simp [trimSegments, (names_iff.1 plain).1]

theorem trimSegments_cons {head : String} (loud : silent head = false) (rest : List String) :
    trimSegments (head :: rest) = head :: trimSegments rest := by
  unfold trimSegments
  rw [List.reverse_cons, List.dropWhile_append]
  split
  · next empty =>
    have none : (rest.reverse.dropWhile silent) = [] := by simpa using empty
    simp [none, loud]
  · simp

/-- The parent of a path that ends in a name has all of its components but that name. -/
theorem parent?_of_name {path : Path} {before : List String} {name : String}
    (split : path.segments = before ++ [name]) (plain : Names name) :
    ∃ parent, path.parent? = some parent ∧
      path.components = parent.components ++ [.named name] := by
  obtain ⟨segments⟩ := path
  simp only at split
  subst split
  have answer : ∀ (lead rest : List String), Path.lead ⟨before ++ [name]⟩ = lead →
      (before ++ [name]).drop lead.length = rest ++ [name] →
      (⟨before ++ [name]⟩ : Path).parent? = some (ofParts lead (trimSegments rest)) := by
    intro lead rest sameLead sameBody
    unfold parent? body
    rw [sameLead, sameBody, trimSegments_name rest plain]
    simp [trimSegments]
  cases before with
  | nil =>
    refine ⟨_, answer [] [] ?_ rfl, ?_⟩
    · simp [Path.lead, plain.ne_empty, plain.ne_dot]
    · rw [List.nil_append, components_names (by simpa using plain)]
      rfl
  | cons head rest =>
    have whole : (⟨head :: rest ++ [name]⟩ : Path).components =
        firstComponents head ++ (rest.filterMap componentOf ++ [.named name]) := by
      have last : [name].filterMap componentOf = [.named name] :=
        filterMap_names (by simpa using plain)
      rw [List.cons_append, components_cons fun _ => by simp, List.filterMap_append, last]
    by_cases empty : head = ""
    · refine ⟨_, answer [""] rest (by simp [Path.lead, empty]) (by simp [empty]), ?_⟩
      have parent : (ofParts [""] (trimSegments rest)).components =
          firstComponents "" ++ rest.filterMap componentOf := by
        rw [← filterMap_trimSegments rest]
        cases trimSegments rest with
        | nil => rfl
        | cons second more => exact components_cons fun _ => by simp
      rw [whole, parent, empty, List.append_assoc]
    · by_cases dot : head = "."
      · refine ⟨_, answer ["."] rest (by simp [Path.lead, dot]) (by simp [dot]), ?_⟩
        have parent : (ofParts ["."] (trimSegments rest)).components =
            firstComponents "." ++ rest.filterMap componentOf := by
          rw [← filterMap_trimSegments rest]
          cases trimSegments rest with
          | nil => rfl
          | cons second more => exact components_cons fun empty => absurd empty (by decide)
        rw [whole, parent, dot, List.append_assoc]
      · refine ⟨_, answer [] (head :: rest) (by simp [Path.lead, empty, dot]) rfl, ?_⟩
        have loud : silent head = false := by simp [silent, empty, dot]
        rw [trimSegments_cons loud]
        have parent : (ofParts [] (head :: trimSegments rest)).components =
            firstComponents head ++ rest.filterMap componentOf := by
          rw [← filterMap_trimSegments rest]
          exact components_cons fun wrong => absurd wrong empty
        rw [whole, parent, List.append_assoc]

/-- The components of the directory that the file at a path stands in. -/
def enclosing (path : Path) : List Component :=
  match path.parent? with
  | some parent => parent.components
  | none => []

/-- A path that ends in a name leads through its directory to that name. -/
theorem EndsInName.components_eq {path : Path} (ends : path.EndsInName) :
    ∃ name, path.components = path.enclosing ++ [.named name] := by
  obtain ⟨before, name, split, plain⟩ := ends
  obtain ⟨parent, isParent, components⟩ := parent?_of_name split plain
  refine ⟨name, ?_⟩
  unfold enclosing
  rw [isParent]
  exact components

theorem EndsInName.enclosing_eq {path : Path} (ends : path.EndsInName) :
    path.enclosing = path.components.dropLast := by
  obtain ⟨name, components⟩ := ends.components_eq
  rw [components, List.dropLast_concat]

theorem trimSegments_quiet (segments : List String) {name : String} {tail : List String}
    (plain : Names name) (quiet : ∀ segment ∈ tail, silent segment = true) :
    trimSegments (segments ++ name :: tail) = segments ++ [name] := by
  have loud : silent name = false := (names_iff.1 plain).1
  have dropped : (segments ++ name :: tail).reverse.dropWhile silent = name :: segments.reverse := by
    rw [List.reverse_append, List.reverse_cons, List.append_assoc,
      List.dropWhile_append_of_pos fun segment member => quiet segment (List.mem_reverse.1 member)]
    simp [loud]
  unfold trimSegments
  rw [dropped]
  simp

/-- A file name without its extension stands where the file name stood, and nothing is left of
what is silent behind it. -/
theorem withoutExtension_quiet {before tail : List String} {name : String} (plain : Names name)
    (quiet : ∀ segment ∈ tail, silent segment = true) :
    (⟨before ++ name :: tail⟩ : Path).withoutExtension = ⟨before ++ [stem name]⟩ := by
  have answer : ∀ (lead rest : List String), Path.lead ⟨before ++ name :: tail⟩ = lead →
      (before ++ name :: tail).drop lead.length = rest ++ name :: tail →
      (⟨before ++ name :: tail⟩ : Path).withoutExtension = ⟨lead ++ (rest ++ [stem name])⟩ := by
    intro lead rest sameLead sameBody
    unfold withoutExtension fileName? body
    rw [sameLead, sameBody, trimSegments_quiet rest plain quiet]
    simp only [List.getLast?_concat, (names_iff.1 plain).2, if_false, List.dropLast_concat]
    unfold ofParts
    cases rest <;> rfl
  cases before with
  | nil => exact answer [] [] (by simp [Path.lead, plain.ne_empty, plain.ne_dot]) rfl
  | cons head rest =>
    by_cases empty : head = ""
    · rw [answer [""] rest (by simp [Path.lead, empty]) (by simp [empty]), empty]
      rfl
    · by_cases dot : head = "."
      · rw [answer ["."] rest (by simp [Path.lead, dot]) (by simp [dot]), dot]
        rfl
      · exact answer [] (head :: rest) (by simp [Path.lead, empty, dot]) rfl

theorem withoutExtension_of_name {before : List String} {name : String} (plain : Names name) :
    (⟨before ++ [name]⟩ : Path).withoutExtension = ⟨before ++ [stem name]⟩ :=
  withoutExtension_quiet plain (by simp)

/-- A path that ends by leading back has no file name to shorten. -/
theorem withoutExtension_up (before : List String) :
    (⟨before ++ [".."]⟩ : Path).withoutExtension = ⟨before ++ [".."]⟩ := by
  have loud : ∀ rest : List String, trimSegments (rest ++ [".."]) = rest ++ [".."] := by
    intro rest
    simp [trimSegments, silent]
  have body : ∃ rest, (⟨before ++ [".."]⟩ : Path).body = rest ++ [".."] := by
    unfold Path.body lead
    cases before with
    | nil => exact ⟨[], by simp⟩
    | cons head rest =>
      by_cases empty : head = ""
      · exact ⟨rest, by simp [empty]⟩
      · by_cases dot : head = "."
        · exact ⟨rest, by simp [dot]⟩
        · exact ⟨head :: rest, by simp [empty, dot]⟩
  obtain ⟨rest, same⟩ := body
  unfold withoutExtension fileName?
  rw [same, loud, List.getLast?_concat]
  simp

theorem stem_ne_empty {name : String} (some_ : name ≠ "") : stem name ≠ "" := by
  unfold stem
  split
  · next after before _ =>
    split
    · exact some_
    · next notEmpty =>
      intro empty
      have chars := congrArg String.toList empty
      rw [String.toList_ofList] at chars
      simp only [List.isEmpty_iff] at notEmpty
      exact notEmpty (by simpa using chars)
  · exact some_

/-! ## Texts -/

/-- A path that is the one written as its text. -/
def IsText (path : Path) : Prop := ofText path.text = path

instance (path : Path) : Decidable path.IsText := inferInstanceAs (Decidable (_ = _))

theorem isText_ofText (text : String) : (ofText text).IsText := by
  have kept : ∀ parts : List (List Char),
      (parts.map String.ofList).map String.toList = parts := by
    intro parts
    simp [Function.comp_def]
  unfold IsText ofText Path.text Text.joinAll Text.splitAll
  rw [kept, String.toList_ofList, Text.joined_pieces]

theorem IsText.segments_ne_nil {path : Path} (written : path.IsText) : path.segments ≠ [] := by
  have same := congrArg Path.segments written
  unfold ofText Text.splitAll at same
  rw [← same]
  simpa using Text.pieces_ne_nil _ _

theorem IsText.no_slash {path : Path} (written : path.IsText) :
    ∀ segment ∈ path.segments, ∀ c ∈ segment.toList, (c == '/') = false := by
  intro segment member c among
  have same := congrArg Path.segments written
  unfold ofText Text.splitAll at same
  rw [← same] at member
  obtain ⟨part, piece, sameText⟩ := List.mem_map.1 member
  rw [← sameText, String.toList_ofList] at among
  exact Text.pieces_plain _ part piece c among

/-- A text behind the text of a path goes to its last name. -/
theorem extended_child {path : Path} {name tail : String} (written : path.IsText)
    (plain : IsName name) (longer : IsName (name ++ tail)) :
    (path.child name).extended tail = path.child (name ++ tail) := by
  rw [child_name path plain, child_name path longer]
  unfold extended ofText Path.text Text.joinAll Text.splitAll
  have behind : ∀ last : String, (path.base ++ [last]).map String.toList =
      path.base.map String.toList ++ [last.toList] := by
    intro last
    simp
  have baseSegments : ∀ segment ∈ path.base, segment ∈ path.segments := by
    intro segment member
    unfold base at member
    split at member
    · exact List.dropLast_subset _ member
    · exact member
  rw [String.toList_append, String.toList_ofList, behind, Text.joined_append_last,
    ← String.toList_append, ← behind, Text.pieces_joined (by simp)]
  · simp [Function.comp_def]
  · intro part member
    obtain ⟨segment, among, same⟩ := List.mem_map.1 member
    rw [← same]
    rcases List.mem_append.1 among with inBase | last
    · exact written.no_slash segment (baseSegments segment inBase)
    · rw [List.mem_singleton.1 last]
      exact longer.noSlash

/-- A text behind the text of a path that ends in a name goes to that name. -/
theorem extended_of_name {path : Path} {before : List String} {name tail : String}
    (written : path.IsText) (split : path.segments = before ++ [name])
    (plain : ∀ c ∈ tail.toList, (c == '/') = false) :
    path.extended tail = ⟨before ++ [name ++ tail]⟩ := by
  unfold extended ofText Path.text Text.joinAll Text.splitAll
  rw [split, List.map_append, List.map_singleton, String.toList_append, String.toList_ofList,
    Text.joined_append_last, Text.pieces_joined (by simp)]
  · simp [Function.comp_def]
  · intro part member
    rcases List.mem_append.1 member with among | last
    · obtain ⟨segment, inside, same⟩ := List.mem_map.1 among
      rw [← same]
      exact written.no_slash segment (by rw [split]; exact List.mem_append_left _ inside)
    · rw [List.mem_singleton.1 last]
      intro c inside
      rcases List.mem_append.1 inside with inName | inTail
      · exact written.no_slash name (by rw [split]; simp) c inName
      · exact plain c inTail

/-- The last name of a path comes behind what the segments before it name. -/
theorem components_last {before : List String} {name : String} (plain : Names name) :
    (⟨before ++ [name]⟩ : Path).components =
      (⟨before ++ [""]⟩ : Path).components ++ [.named name] := by
  have isBase : (⟨before ++ [""]⟩ : Path).base = before := by simp [base]
  have behind : (⟨(⟨before ++ [""]⟩ : Path).base ++ [name]⟩ : Path).components =
      (⟨before ++ [""]⟩ : Path).components ++ [name].map Component.named :=
    components_base_append _ (by simp) (by simpa using plain)
  rw [isBase] at behind
  exact behind

/-! ## The root -/

theorem componentOf_ne_root (segment : String) : componentOf segment ≠ some .root := by
  unfold componentOf
  split
  · simp
  · split <;> simp

/-- Only the first component of a path may be the root. -/
theorem components_root (path : Path) : (∃ rest, path.components = .root :: rest ∧
    .root ∉ rest) ∨ .root ∉ path.components := by
  have rootless : Component.root ∉ path.body.filterMap componentOf := by
    intro member
    obtain ⟨segment, _, isRoot⟩ := List.mem_filterMap.1 member
    exact componentOf_ne_root segment isRoot
  unfold components leadComponents
  split
  · exact Or.inr rootless
  · split
    · exact Or.inl ⟨_, rfl, rootless⟩
    · exact Or.inr (by simpa using rootless)

end Path

end EoAssembly
