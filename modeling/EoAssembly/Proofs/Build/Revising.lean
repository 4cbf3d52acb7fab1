import EoAssembly.Proofs.Build.Operating

/-!
Contract: the changes that stages make to records are allowed on a site.

Each stage knows enough about an object when it changes its record: where its source is,
that its document was just written, that all names found in it have records.  A record
that counts as the same as the changed one is equal to it, since the paths of a site are
told apart by their components.

Owns one lemma for each change of a stage.
-/

namespace EoAssembly.Build

open ObjectName (checkPlace)

namespace Site

variable {site : Site} {enrolled : Prop} {disk : Disk} {catalog : Catalog} {old : Record}
  {path : Path}

section Changes

variable (fits : site.Fits disk catalog old) (found : catalog.find? old.id = some old)

include fits found

/-- A record that fits still does when it is put in another form. -/
theorem fits_put (new : Record) (sameId : new.id = old.id) (within : old.Within new) :
    site.Fits disk (catalog.put new) old := by
  refine fits.grow (Catalog.grows_put fun other foundOther => ?_)
  rw [sameId, found] at foundOther
  rw [← Option.some.inj foundOther]
  exact within

theorem allowed_registered (firm : site.Firm) {file : Path} (member : file ∈ site.files)
    (isFile : idOf file = old.id) :
    site.Allowed False disk catalog old
      { asRegistered (site.sourcePath file) old with id := old.id } := by
  have registers : site.Registers old.id := List.mem_map.2 ⟨file, member, isFile⟩
  have unpulled := fits.unpulled registers
  have within := (StageChange.registered (site.sourcePath file)).within old
  have base := fits_put fits found { asRegistered (site.sourcePath file) old with id := old.id } rfl
    within
  refine ⟨within, { base with
    placed := fun _ foreign => absurd registers foreign
    ofProject := fun _ path isPath => ⟨file, member, isFile, (Option.some.inj isPath).symm⟩
    ofStore := fun pulled => absurd (unpulled.symm.trans pulled) (by simp)
    parsed := fun path isPath => ?_
    status := fun exact_ discovered => ?_ }, fun same => ?_, False.elim⟩
  · obtain ⟨place, _, stands⟩ := base.parsed path isPath
    exact ⟨place, rfl, stands⟩
  · have status := base.status exact_ discovered
    change some (old.status.getD Status.registered) = some Status.discovered
    rw [status]
    rfl
  · refine eq_of_same same (fun agree => ?_) (fun _ => rfl) (fun _ => rfl) (fun _ => rfl)
    change some (site.sourcePath file) = old.source
    change Record.componentsOf (some (site.sourcePath file)) = Record.componentsOf old.source at agree
    cases isOld : old.source with
    | none => simp [isOld, Record.componentsOf] at agree
    | some other =>
      obtain ⟨twin, memberTwin, _, rfl⟩ := fits.ofProject unpulled other isOld
      rw [isOld] at agree
      rw [sourcePath_eq firm member memberTwin (Option.some.inj agree)]

theorem allowed_parsed (place : path = site.place .parsed old.id)
    (sourced : old.source.isSome = true) (unparsed : old.xmir = none)
    (stands : site.Stands disk .parsed old.id)
    (standing : old.pulled = true → site.Stands disk .pulled old.id) :
    site.Allowed enrolled disk catalog old { asParsed path old with id := old.id } := by
  have within := (StageChange.parsed path).within old
  have base := fits_put fits found { asParsed path old with id := old.id } rfl within
  refine ⟨within, { base with
    standing := fun pulled _ => standing pulled
    parsed := fun other isOther => ?_
    optimized := fun other isOther => ?_
    status := fun _ discovered => ?_ }, fun same => ?_, fun _ _ => rfl⟩
  · rw [← Option.some.inj (Option.mem_def.1 isOther)]
    exact ⟨place, sourced, stands⟩
  · obtain ⟨placeOther, _, standsOther⟩ := base.optimized other isOther
    exact ⟨placeOther, rfl, standsOther⟩
  · have parsed := fits.parsed_of_optimized (fits.optimized_of_discovered discovered)
    rw [unparsed] at parsed
    exact absurd parsed (by simp)
  · refine eq_of_same same (fun _ => rfl) (fun agree => ?_) (fun _ => rfl) (fun _ => rfl)
    change Record.componentsOf (some path) = Record.componentsOf old.xmir at agree
    rw [unparsed] at agree
    simp [Record.componentsOf] at agree

theorem allowed_optimized (place : path = site.place .optimized old.id)
    (parsed : old.xmir.isSome = true) (unoptimized : site.exact → old.optimized = none)
    (stands : site.exact → site.Stands disk .optimized old.id) :
    site.Allowed enrolled disk catalog old { asOptimized path old with id := old.id } := by
  have within := (StageChange.optimized path).within old
  have base := fits_put fits found { asOptimized path old with id := old.id } rfl within
  refine ⟨within, { base with
    optimized := fun other isOther => ?_
    discovered := fun count isCount => ⟨rfl, (base.discovered count isCount).2⟩
    status := fun exact_ discovered => ?_ }, fun same => ?_, fun _ _ => rfl⟩
  · rw [← Option.some.inj (Option.mem_def.1 isOther)]
    exact ⟨place, parsed, stands⟩
  · have optimized := fits.optimized_of_discovered discovered
    rw [unoptimized exact_] at optimized
    exact absurd optimized (by simp)
  · refine eq_of_same same (fun _ => rfl) (fun _ => rfl) (fun agree => ?_) (fun _ => rfl)
    change Record.componentsOf (some path) = Record.componentsOf old.optimized at agree
    change some path = old.optimized
    cases isOld : old.optimized with
    | none => simp [isOld, Record.componentsOf] at agree
    | some other => rw [(fits.optimized other isOld).1, place]

theorem allowed_seenIn (seen : ∃ id, path = site.place .optimized id) :
    site.Allowed enrolled disk catalog old { asSeenIn path old with id := old.id } := by
  have within := (StageChange.seenIn path).within old
  have base := fits_put fits found { asSeenIn path old with id := old.id } rfl within
  refine ⟨within, { base with seen := fun other isOther => ?_ }, fun same => ?_, fun _ _ => rfl⟩
  · rw [← Option.some.inj (Option.mem_def.1 isOther)]
    cases isOld : old.discoveredAt with
    | none => exact seen
    | some before => exact fits.seen before isOld
  · refine eq_of_same same (fun _ => rfl) (fun _ => rfl) (fun _ => rfl) (fun agree => ?_)
    change Record.componentsOf (some (old.discoveredAt.getD path)) =
      Record.componentsOf old.discoveredAt at agree
    change some (old.discoveredAt.getD path) = old.discoveredAt
    cases isOld : old.discoveredAt with
    | none => simp [isOld, Record.componentsOf] at agree
    | some before => rfl

theorem allowed_discovered {text : String} {names : List String}
    (optimized : old.optimized.isSome = true)
    (holds : site.Holds disk .optimized old.id (.text text))
    (reads : namesOfText (site.place .optimized old.id) text = .ok names)
    (known : ∀ name ∈ names, ∃ other, catalog.find? name = some other) :
    site.Allowed enrolled disk catalog old { asDiscovered names.length old with id := old.id } := by
  have within := (StageChange.discovered names.length).within old
  have base := fits_put fits found { asDiscovered names.length old with id := old.id } rfl within
  have grows : catalog.Grows (catalog.put { asDiscovered names.length old with id := old.id }) := by
    refine Catalog.grows_put fun before foundBefore => ?_
    rw [← Option.some.inj (found.symm.trans foundBefore)]
    exact within
  refine ⟨within, { base with
    discovered := fun count isCount => ?_
    status := fun _ _ => rfl }, fun same => ?_, fun _ _ => rfl⟩
  · refine ⟨optimized, text, names, holds, reads, (Option.some.inj (Option.mem_def.1 isCount)).symm,
      fun name among => ?_⟩
    obtain ⟨other, foundOther⟩ := known name among
    obtain ⟨later, foundLater, _⟩ := grows name other foundOther
    exact ⟨later, foundLater⟩
  · exact eq_of_same same (fun _ => rfl) (fun _ => rfl) (fun _ => rfl) (fun _ => rfl)

theorem allowed_pulled {hash : Option String} (foreign : ¬site.Registers old.id)
    (checks : checkPlace old.id = .ok ())
    (answered : site.Answered disk old.id)
    (standing : site.exact ∨ old.xmir.isSome = true → site.Stands disk .pulled old.id)
    (undiscovered : site.exact → old.discovered = none)
    (pinned : site.exact → hash = pinnedHash site.tags old.id) :
    site.Allowed enrolled disk catalog old
      { asPulled (site.place .pulled old.id) (ObjectName.split old.id).2 hash old with
        id := old.id } := by
  have within :=
    (StageChange.pulled (site.place .pulled old.id) (ObjectName.split old.id).2 hash).within old
  have base := fits_put fits found
    { asPulled (site.place .pulled old.id) (ObjectName.split old.id).2 hash old with id := old.id }
    rfl within
  refine ⟨within, { base with
    placed := fun _ _ => checks
    ofProject := fun unpulled => absurd unpulled (by simp [asPulled])
    ofStore := fun _ => ⟨foreign, rfl⟩
    answered := fun _ => answered
    standing := fun _ => standing
    parsed := fun other isOther => ?_
    status := fun exact_ discovered => ?_
    pinned := fun exact_ => ⟨rfl, pinned exact_⟩ }, fun same => ?_,
    fun _ registers => absurd registers foreign⟩
  · obtain ⟨place, _, stands⟩ := base.parsed other isOther
    exact ⟨place, rfl, stands⟩
  · change old.discovered.isSome = true at discovered
    rw [undiscovered exact_] at discovered
    exact absurd discovered (by simp)
  · refine eq_of_same same (fun agree => ?_) (fun _ => rfl) (fun _ => rfl) (fun _ => rfl)
    change Record.componentsOf (some (site.place .pulled old.id)) =
      Record.componentsOf old.source at agree
    change some (site.place .pulled old.id) = old.source
    cases pulled : old.pulled with
    | true => exact (fits.ofStore pulled).2.symm
    | false =>
      rw [fits.unsourced foreign pulled] at agree
      simp [Record.componentsOf] at agree

end Changes

end Site

end EoAssembly.Build
