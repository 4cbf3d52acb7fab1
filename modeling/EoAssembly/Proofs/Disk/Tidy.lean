import EoAssembly.Proofs.Disk.Granted
import Mathlib.Data.List.Nodup

/-!
Contract: what the listing of a directory depends on.

A disk is tidy when each location has one entry at most.  The operations of a disk keep it
tidy, and tidy disks that hold the same below a directory list the same files there.

Owns `Tidy`, that operations keep it, that listings follow from what stands where, and
`Alike`, disks that answer every path alike.
-/

namespace EoAssembly

namespace Disk

variable {disk next : Disk} {path : Path} {text : String}

/-- No two entries have one location, and none is the root. -/
def Tidy (disk : Disk) : Prop := ([] :: disk.entries.map Prod.fst).Nodup

instance (disk : Disk) : Decidable disk.Tidy := inferInstanceAs (Decidable (List.Nodup _))

/-! ## Operations -/

theorem Tidy.takeOutage (tidy : disk.Tidy) : disk.takeOutage.2.Tidy := by
  unfold Disk.takeOutage
  split <;> exact tidy

theorem Tidy.erase (tidy : disk.Tidy) (location : Location) : (disk.erase location).Tidy :=
  List.Nodup.sublist (List.Sublist.cons_cons [] (List.filter_sublist.map Prod.fst)) tidy

theorem Tidy.put (tidy : disk.Tidy) {location : Location} (notRoot : location ≠ [])
    (entry : Entry) : (disk.put location entry).Tidy := by
  obtain ⟨rootless, nodup⟩ := List.nodup_cons.1 tidy
  have fewer : ((disk.entries.filter fun other => other.1 != location).map Prod.fst).Sublist
      (disk.entries.map Prod.fst) := List.filter_sublist.map Prod.fst
  refine List.nodup_cons.2 ⟨?_, List.nodup_cons.2 ⟨?_, nodup.sublist fewer⟩⟩
  · intro member
    rcases List.mem_cons.1 member with here | later
    · exact notRoot here.symm
    · exact rootless (fewer.subset later)
  · intro member
    obtain ⟨other, among, same⟩ := List.mem_map.1 member
    exact absurd same (by simpa using (List.mem_filter.1 among).2)

theorem Tidy.createAlong {components : List Path.Component} {location : Location}
    {outcome : Except Refusal Unit} (tidy : disk.Tidy)
    (ran : disk.createAlong location components = (outcome, next)) : next.Tidy := by
  induction components generalizing disk location with
  | nil =>
    rw [← (Prod.mk.inj ran).2]
    exact tidy
  | cons component rest inductionHypothesis =>
    cases component with
    | root => exact inductionHypothesis tidy ran
    | here => exact inductionHypothesis tidy ran
    | up => exact inductionHypothesis tidy ran
    | named name =>
      simp only [Disk.createAlong] at ran
      split at ran
      · exact inductionHypothesis tidy ran
      · rw [← (Prod.mk.inj ran).2]
        exact tidy
      · split at ran
        · exact inductionHypothesis (tidy.put (by simp) .directory) ran
        · rw [← (Prod.mk.inj ran).2]
          exact tidy

theorem Tidy.createParent {outcome : Except Refusal Unit} (tidy : disk.Tidy)
    (ran : disk.createParent path = (outcome, next)) : next.Tidy := by
  rw [createParent_eq] at ran
  exact tidy.createAlong ran

theorem Tidy.writeText {outcome : Except Refusal Unit} (tidy : disk.Tidy)
    (ran : disk.writeText path text = (outcome, next)) : next.Tidy := by
  cases outcome with
  | error refusal =>
    rw [writeText_failed ran]
    exact tidy.takeOutage
  | ok value =>
    obtain ⟨location, writable, result⟩ := writeText_eq_ok ran
    rw [result]
    exact tidy.takeOutage.put (notRoot_of_writable (writableAt_ok writable).2.2.2.2) _

theorem Tidy.replace {source target : Path} {outcome : Except Refusal Unit} (tidy : disk.Tidy)
    (ran : disk.replace source target = (outcome, next)) : next.Tidy := by
  cases outcome with
  | error refusal =>
    rw [replace_failed ran]
    exact tidy.takeOutage
  | ok value =>
    obtain ⟨origin, content, location, _, _, writable, result⟩ := replace_eq_ok ran
    rw [result]
    exact (tidy.takeOutage.erase origin).put
      (notRoot_of_writable (writableAt_ok writable).2.2.2.2) _

/-! ## Listings -/

theorem Tidy.mem_entries (tidy : disk.Tidy) {location : Location} {entry : Entry} :
    (location, entry) ∈ disk.entries ↔ location ≠ [] ∧ disk.entryAt? location = some entry := by
  obtain ⟨rootless, nodup⟩ := List.nodup_cons.1 tidy
  constructor
  · intro member
    have notRoot : location ≠ [] := by
      intro root
      rw [root] at member
      exact rootless (List.mem_map_of_mem member)
    refine ⟨notRoot, ?_⟩
    unfold entryAt?
    rw [if_neg notRoot]
    obtain ⟨front, rest, split⟩ := List.append_of_mem member
    refine List.lookup_eq_some_iff.2 ⟨front, rest, split, fun other among => ?_⟩
    rw [bne_iff_ne]
    intro same
    rw [split, List.map_append, List.map_cons, List.nodup_append] at nodup
    exact nodup.2.2 other.1 (List.mem_map_of_mem among) location List.mem_cons_self same.symm
  · rintro ⟨notRoot, stands⟩
    unfold entryAt? at stands
    rw [if_neg notRoot] at stands
    obtain ⟨front, rest, split, _⟩ := List.lookup_eq_some_iff.1 stands
    rw [split]
    simp

/-- The files below a directory, in the order of the disk. -/
def unsorted (disk : Disk) (location : Location) : List (Location × FileContent) :=
  disk.entries.filterMap fun other =>
    match other.2 with
    | .file content =>
      if location.isPrefixOf other.1 then some (other.1.drop location.length, content) else none
    | .directory => none

/-- Files are listed by the names on their way. -/
def inOrder (left right : Location × FileContent) : Bool := !right.1.lex left.1 (· < ·)

theorem filesBelow_eq (disk : Disk) (location : Location) :
    disk.filesBelow location = (disk.unsorted location).mergeSort inOrder := rfl

theorem listed_iff {location : Location} {other : Location × Entry}
    {file : Location × FileContent} :
    (match other.2 with
      | .file content =>
        if location.isPrefixOf other.1 then some (other.1.drop location.length, content) else none
      | .directory => none) = some file ↔ other = (location ++ file.1, .file file.2) := by
  obtain ⟨place, entry⟩ := other
  constructor
  · intro listed
    cases entry with
    | directory => exact absurd listed (by simp)
    | file content =>
      simp only at listed
      split at listed
      · next starts =>
        rw [← Option.some.inj listed, List.prefix_iff_eq_append.1 (List.isPrefixOf_iff_prefix.1 starts)]
      · exact absurd listed (by simp)
  · intro same
    obtain ⟨rfl, rfl⟩ := Prod.mk.inj same
    simp only [List.isPrefixOf_iff_prefix.2 (List.prefix_append location file.1), if_true,
      List.drop_left]

theorem mem_filesBelow {location : Location} {file : Location × FileContent} :
    file ∈ disk.filesBelow location ↔ (location ++ file.1, .file file.2) ∈ disk.entries := by
  rw [filesBelow_eq, List.mem_mergeSort]
  unfold unsorted
  rw [List.mem_filterMap]
  constructor
  · rintro ⟨other, member, listed⟩
    rw [← listed_iff.1 listed]
    exact member
  · intro member
    exact ⟨_, member, listed_iff.2 rfl⟩

theorem Tidy.mem_filesBelow (tidy : disk.Tidy) {location : Location}
    {file : Location × FileContent} : file ∈ disk.filesBelow location ↔
      location ++ file.1 ≠ [] ∧ disk.entryAt? (location ++ file.1) = some (.file file.2) :=
  Disk.mem_filesBelow.trans tidy.mem_entries

theorem Tidy.nodup_filesBelow (tidy : disk.Tidy) (location : Location) :
    (disk.filesBelow location).Nodup := by
  have entries : disk.entries.Nodup := List.Nodup.of_map Prod.fst (List.nodup_cons.1 tidy).2
  rw [filesBelow_eq, (List.mergeSort_perm _ _).nodup_iff]
  refine List.Nodup.filterMap (fun first second file here there => ?_) entries
  rw [listed_iff.1 here, listed_iff.1 there]

theorem inOrder_iff {left right : Location × FileContent} :
    inOrder left right = true ↔ List.le left.1 right.1 := by
  unfold inOrder
  rw [Bool.not_eq_true']
  exact List.lex_eq_false_iff_ge

theorem sorted_inOrder (files : List (Location × FileContent)) :
    (files.mergeSort inOrder).Pairwise fun left right => inOrder left right = true := by
  refine List.pairwise_mergeSort (fun one two three first second => ?_) (fun one two => ?_) files
  · exact inOrder_iff.2 (List.le_trans (inOrder_iff.1 first) (inOrder_iff.1 second))
  · rw [Bool.or_eq_true, inOrder_iff, inOrder_iff]
    exact List.le_total one.1 two.1

/-- Tidy disks that hold the same below a directory list the same files there. -/
theorem filesBelow_congr {first second : Disk} {location : Location} (tidy : first.Tidy)
    (tidySecond : second.Tidy)
    (same : ∀ place, location <+: place → second.entryAt? place = first.entryAt? place) :
    second.filesBelow location = first.filesBelow location := by
  have members : ∀ file, file ∈ second.filesBelow location ↔ file ∈ first.filesBelow location := by
    intro file
    rw [tidy.mem_filesBelow, tidySecond.mem_filesBelow, same _ (List.prefix_append _ _)]
  have both := (List.perm_ext_iff_of_nodup (tidySecond.nodup_filesBelow location)
    (tidy.nodup_filesBelow location)).2 members
  refine List.Perm.eq_of_pairwise (fun one two here there less more => ?_) (sorted_inOrder _)
    (sorted_inOrder _) both
  have key : one.1 = two.1 :=
    List.le_antisymm (inOrder_iff.1 less) (inOrder_iff.1 more)
  have standsOne := (tidySecond.mem_filesBelow.1 here).2
  have standsTwo := (tidy.mem_filesBelow.1 there).2
  rw [key, same _ (List.prefix_append _ _), standsTwo] at standsOne
  exact Prod.ext key (Entry.file.inj (Option.some.inj standsOne)).symm

end Disk

/-! ## Disks that are alike -/

/-- Two disks with the same entries. -/
structure Disk.Alike (first second : Disk) : Prop where
  current : second.current = first.current
  entries : ∀ location, second.entryAt? location = first.entryAt? location

theorem Disk.alike_calmed (disk : Disk) : disk.Alike disk.calmed :=
  ⟨rfl, Disk.entryAt?_calmed disk⟩

namespace Disk.Alike

variable {first second : Disk}

theorem entry? (alike : first.Alike second) (path : Path) :
    second.entry? path = first.entry? path :=
  Disk.entry_congr alike.current (Disk.passable_congr alike.current fun passed _ => alike.entries passed)
    (alike.entries _)

theorem exists? (alike : first.Alike second) (path : Path) :
    second.exists? path = first.exists? path :=
  Disk.exists?_congr (alike.entry? path)

theorem isDirectory (alike : first.Alike second) (path : Path) :
    second.isDirectory path = first.isDirectory path := by
  unfold Disk.isDirectory
  rw [alike.entry? path]

end Disk.Alike

end EoAssembly
