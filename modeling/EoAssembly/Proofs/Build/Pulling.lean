import EoAssembly.Proofs.Build.Working

/-!
Contract: pulling and registering leave a steady workspace steady, and so do whole builds.

A name is pulled because an optimized document refers to it, and it keeps doing so.  The
files that are registered stand in the sources, where strict names keep them apart from
the siblings of catalog files.

Owns the rules of pulling, registering, and cycles in the regime of builds.
-/

namespace EoAssembly.Build

open ObjectName (Placeable Storable checkPlace placeable_of_checkPlace)
open Path (IsName)

variable {grounds : Grounds} {settings : Settings} {remote : Remote} {name : String}

/-- A name to pull is referred to by an optimized document at its place. -/
theorem referred_of_names {present : Workspace} (steady : Steady grounds present)
    (member : name ∈ referredNames present.disk present.foreign) :
    ObjectName.segments "log" name ≠ [] ∧
      (grounds.strict → Referred grounds present.disk present.foreign name) := by
  obtain ⟨record, among, document, names, isOptimized, reads, inside⟩ :=
    mem_referredNames.1 member
  constructor
  · obtain ⟨_, _, _, _, same⟩ := namesIn_ok.1 reads
    rw [← same] at inside
    exact Document.segments_foreignNames inside
  · intro strict
    have borne := steady.foreign.records record among
    have marked : record.optimized.isSome = true := by rw [isOptimized]; rfl
    have sourced := borne.parsed (borne.optimized marked)
    rw [(borne.document document isOptimized).2] at reads
    exact ⟨record.id, record, Catalog.find?_of_mem steady.foreign.sorted among, marked,
      borne.placeable strict sourced, names, reads, inside⟩

theorem Referred.mem_referredNames {present : Workspace} (steady : Steady grounds present)
    (referred : Referred grounds present.disk present.foreign name) :
    name ∈ referredNames present.disk present.foreign := by
  obtain ⟨id, record, found, marked, _, names, reads, inside⟩ := referred
  obtain ⟨document, isOptimized⟩ := Option.isSome_iff_exists.1 marked
  have place := ((steady.foreign.found found).document document isOptimized).2
  rw [Catalog.id_of_find? found] at place
  refine Build.mem_referredNames.2
    ⟨record, Catalog.mem_of_find? found, document, names, isOptimized, ?_, inside⟩
  rw [place]
  exact reads

section Stages

variable (firm : grounds.Firm) (suits : grounds.Suits settings)
  (store : remote.KeepsTo grounds.own) (named : remote.KeepsNames)

include firm

/-! ## Pulling -/

include store named

theorem governs_fetchSource (placeable : Placeable name)
    (some_ : ObjectName.segments "log" name ≠ []) :
    grounds.regime.Governs (fun _ => True)
      (fetchSource remote name (pulledPlace grounds.target name) (logPlace grounds.protocols name))
      fun _ present => grounds.Lasting present.disk (pulledPlace grounds.target name) := by
  have safe := Grounds.safe_inside firm
    (inside_pulledPlace placeable.storable grounds.target grounds.current)
  refine .bind (governs_fetch firm store named) fun text => ?_
  refine .bind (governs_write_plain firm text (beside_pulled firm placeable) fun _ =>
    unread_pulled placeable) fun _ => ?_
  refine .bind governs_look fun instant => ?_
  have stable : grounds.regime.Stable fun present =>
      grounds.Lasting present.disk (pulledPlace grounds.target name) := stable_lasting
  have logged := (governs_write_plain firm (logText (pulledPlace grounds.target name) instant)
    (beside_log firm placeable some_) fun _ => unread_log firm placeable).keep stable
  exact logged.weaken (fun _ _ here => ⟨trivial, safe, here.2⟩) fun _ _ _ told => told.2

omit store named

include suits

theorem governs_recordPulled (checks : checkPlace name = .ok ()) (hash : Option String) :
    grounds.regime.Governs
      (fun present => grounds.Lasting present.disk (pulledPlace grounds.target name) ∧
        (grounds.strict → Referred grounds present.disk present.foreign name))
      (recordPulled settings remote name (pulledPlace grounds.target name) hash)
      fun _ _ => True := by
  have stable : grounds.regime.Stable fun present =>
      grounds.Lasting present.disk (pulledPlace grounds.target name) ∧
        (grounds.strict → Referred grounds present.disk present.foreign name) :=
    stable_lasting.and stable_referred
  refine .bind (((governs_add firm (fun _ => True) trivial).keep stable).from_ fun _ _ here =>
    ⟨fun _ _ => trivial, here⟩) fun added => ?_
  refine .bind ((governs_change firm).from_ fun present holds here => ?_) fun record => .ite
    (fun _ => .bind (governs_parseObject firm suits) fun _ => .pure fun _ _ _ => trivial)
    fun _ => .pure fun _ _ _ => trivial
  obtain ⟨⟨found, _⟩, lasting, referred⟩ := here
  have sameId := Catalog.id_of_find? found
  refine ⟨added, found, ?_⟩
  have borne := holds.1.foreign.found found
  rw [← sameId] at found checks lasting referred ⊢
  exact allowed_pulled borne found firm checks lasting referred

include store named

theorem governs_pullPinned (checks : checkPlace name = .ok ())
    (some_ : ObjectName.segments "log" name ≠ []) (hash : Option String) :
    grounds.regime.Governs
      (fun present => grounds.strict → Referred grounds present.disk present.foreign name)
      (pullPinned settings remote name hash) fun _ _ => True := by
  have placeable := placeable_of_checkPlace checks
  unfold pullPinned
  rw [suits.target, suits.protocols]
  refine .bind governs_look fun disk => ?_
  split
  · exact .pure fun _ _ _ => trivial
  · refine .bind (((governs_fetchSource firm store named placeable some_).keep stable_referred).from_
      fun _ _ here => ⟨trivial, here.2⟩) fun _ => ?_
    exact .bind (governs_recordPulled firm suits checks hash) fun _ => .pure fun _ _ _ => trivial
  · next keeps =>
    have there := (pullChoice_keep keeps).2
    have safe := Grounds.safe_inside firm
      (inside_pulledPlace placeable.storable grounds.target grounds.current)
    have known : ∀ present : Workspace, disk = present.disk →
        grounds.Lasting present.disk (pulledPlace grounds.target name) := by
      rintro present rfl
      exact ⟨safe, there⟩
    refine .bind governs_look fun recorded => .ite (fun _ => ?_) fun _ => .pure fun _ _ _ => trivial
    refine .bind ((governs_recordPulled firm suits checks hash).from_ fun present _ here => ?_)
      fun _ => .pure fun _ _ _ => trivial
    exact ⟨known present here.2.1, here.2.2⟩

theorem governs_pullName (some_ : ObjectName.segments "log" name ≠ []) (known : Option HashTable) :
    grounds.regime.Governs
      (fun present => grounds.strict → Referred grounds present.disk present.foreign name)
      (pullName settings remote known name) fun _ _ => True := by
  refine .bind governs_look fun left => .ite (fun _ => .pure fun _ _ _ => trivial) fun _ => ?_
  refine .bind (governs_outcome.from_ fun _ _ here => here.2) fun _ => ?_
  refine .given (fun checks : checkPlace name = .ok () => ?_) fun _ _ here => here.1
  have pins : grounds.regime.Governs
      (fun present => checkPlace name = .ok () ∧
        (grounds.strict → Referred grounds present.disk present.foreign name))
      (pinned remote known name) fun _ present =>
        grounds.strict → Referred grounds present.disk present.foreign name := by
    unfold pinned
    split
    · exact .pure fun _ _ here => here.2
    · have loaded : grounds.regime.Governs
          (fun present => checkPlace name = .ok () ∧
            (grounds.strict → Referred grounds present.disk present.foreign name))
          (tableFor remote known) fun _ present =>
            grounds.strict → Referred grounds present.disk present.foreign name := by
        unfold tableFor
        split
        · exact .pure fun _ _ here => here.2
        · exact (governs_table.keeping stable_referred).from_ fun _ _ here => here.2
      refine .bind loaded fun table => ?_
      exact .bind (governs_outcome.telling fun _ _ _ here => here.2) fun _ => .pure fun _ _ here => here
  refine .bind pins fun pin => ?_
  exact .bind (governs_pullPinned firm suits store named checks some_ pin.1) fun _ =>
    .pure fun _ _ _ => trivial

theorem governs_pullEach (known : Option HashTable) (names : List String)
    (some_ : ∀ name ∈ names, ObjectName.segments "log" name ≠ []) :
    grounds.regime.Governs
      (fun present => ∀ name ∈ names,
        grounds.strict → Referred grounds present.disk present.foreign name)
      (pullEach settings remote known names) fun _ _ => True := by
  induction names generalizing known with
  | nil => exact .pure fun _ _ _ => trivial
  | cons name rest inductionHypothesis =>
    have stable : grounds.regime.Stable fun present => ∀ other ∈ name :: rest,
        grounds.strict → Referred grounds present.disk present.foreign other :=
      .all fun _ => .all fun _ => stable_referred
    refine .bind (((governs_pullName firm suits store named (some_ name List.mem_cons_self)
      known).keep stable).from_ fun _ _ here => ⟨here name List.mem_cons_self, here⟩) fun pulled => ?_
    refine .bind ((inductionHypothesis pulled.2 fun other member => some_ other
      (List.mem_cons_of_mem _ member)).from_ fun _ _ here other member =>
        here.2 other (List.mem_cons_of_mem _ member)) fun _ => .pure fun _ _ _ => trivial

theorem governs_pullAll :
    grounds.regime.Governs (fun _ => True) (pullAll settings remote) fun _ _ => True := by
  have looked : grounds.regime.Governs (fun _ => True)
      (Step.look fun workspace => referredNames workspace.disk workspace.foreign)
      fun names present => (∀ name ∈ names, ObjectName.segments "log" name ≠ []) ∧
        ∀ name ∈ names, grounds.strict → Referred grounds present.disk present.foreign name :=
    .look fun present holds _ => ⟨fun _ member => (referred_of_names holds.1 member).1,
      fun _ member => (referred_of_names holds.1 member).2⟩
  refine .bind looked fun names => .given (fun some_ => ?_) fun _ _ here => here.1
  exact (governs_pullEach firm suits store named none names some_).from_ fun _ _ here => here.2

/-! ## Cycles -/

theorem governs_cycle :
    grounds.regime.Governs (fun _ => True) (cycle settings remote) fun _ _ => True := by
  unfold cycle
  rw [suits.target]
  refine .bind (governs_parseAll firm suits) fun _ => .bind (governs_optimizeAll firm) fun _ => ?_
  exact .bind (governs_discoverAll firm) fun _ => governs_pullAll firm suits store named

theorem governs_settle (bound : Nat) :
    grounds.regime.Governs (fun _ => True) (settle settings remote bound) fun _ _ => True := by
  induction bound with
  | zero => exact .fail fun _ holds _ => stops_of_holds holds
  | succ left inductionHypothesis =>
    refine .bind governs_look fun before => ?_
    refine .bind ((governs_cycle firm suits store named).from_ fun _ _ _ => trivial) fun fetched => ?_
    refine .bind governs_look fun after => .ite (fun _ => .pure fun _ _ _ => trivial) fun _ => ?_
    exact .bind (inductionHypothesis.from_ fun _ _ _ => trivial) fun _ => .pure fun _ _ _ => trivial

end Stages

end EoAssembly.Build
