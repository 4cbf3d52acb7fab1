import EoAssembly.ObjectStore.Basic
import EoAssembly.Proofs.Disk.Frame
import EoAssembly.Proofs.ObjectStore.Inside
import Mathlib.Data.List.Nodup

/-!
Contract: which checkout answers a request when stores share their cache root.

The directory of a checkout is known by the fingerprint of its URL and by its reference with
dashes for slashes, and a directory that is there is taken for the checkout.  So a request is
answered from the first clone whose reference is written like the one that was asked for, and no
repository is cloned twice at one reference.

Owns `Snapshot` and `Faithful`, what is relied on of cloning, `serve`, a run of fetches, and the
law that tells which clone a fetch reads.
-/

namespace EoAssembly

namespace Text

/-! ## Letters of fingerprints -/

/-- A character that is neither a dash nor a slash. -/
def Solid (c : Char) : Prop := c ≠ '-' ∧ c ≠ '/'

instance (c : Char) : Decidable (Solid c) := inferInstanceAs (Decidable (_ ∧ _))

theorem solid_hexDigit : ∀ value < 16, Solid (hexDigit value) := by decide

theorem solid_hexDigits (width value : Nat) : ∀ c ∈ hexDigits width value, Solid c := by
  induction width generalizing value with
  | zero => simp [hexDigits]
  | succ width inductionHypothesis =>
    intro c member
    rcases List.mem_append.1 member with front | last
    · exact inductionHypothesis _ c front
    · rw [List.mem_singleton.1 last]
      exact solid_hexDigit _ (Nat.mod_lt value (by decide))

theorem solid_fingerprintText (text : String) : ∀ c ∈ (fingerprintText text).toList, Solid c := by
  unfold fingerprintText shortHexWord
  intro c member
  simp only at member
  split at member
  · rw [List.mem_singleton.1 (show c ∈ ['0'] from member)]
    decide
  · rw [String.toList_ofList] at member
    exact solid_hexDigits _ _ c ((List.dropWhile_sublist _).subset member)

end Text

namespace ObjectStore

open Path (IsName)
open ObjectName (Relative inside)

/-! ## Names of checkouts -/

/-- The name of the directory of a checkout. -/
def checkoutName (url reference : String) : String :=
  Text.fingerprintText url ++ "-" ++ safeReference reference

variable {root : Path} {url other reference later : String}

theorem toList_checkoutName (url reference : String) : (checkoutName url reference).toList =
    (Text.fingerprintText url).toList ++ '-' :: (safeReference reference).toList := by
  unfold checkoutName
  rw [String.toList_append, String.toList_append, List.append_assoc]
  rfl

theorem isName_checkoutName (url reference : String) : IsName (checkoutName url reference) := by
  refine ObjectName.isName_of_char (c := '-') ?_ (by decide) fun c member => ?_
  · rw [toList_checkoutName]
    simp
  · rw [toList_checkoutName, List.mem_append, List.mem_cons] at member
    rw [beq_eq_false_iff_ne]
    rcases member with solid | dash | safe
    · exact (Text.solid_fingerprintText url c solid).2
    · rw [dash]
      decide
    · unfold safeReference at safe
      rw [String.toList_ofList] at safe
      obtain ⟨letter, _, rfl⟩ := List.mem_map.1 safe
      split
      · decide
      · next plain => exact plain

/-- The first dash of a name ends the fingerprint. -/
theorem checkoutName_inj (same : checkoutName url reference = checkoutName other later) :
    Text.fingerprintText url = Text.fingerprintText other ∧
      safeReference reference = safeReference later := by
  have front : ∀ url reference, (checkoutName url reference).toList.takeWhile (· != '-') =
      (Text.fingerprintText url).toList := by
    intro url reference
    rw [toList_checkoutName, List.takeWhile_append_of_pos fun c member =>
      bne_iff_ne.2 (Text.solid_fingerprintText url c member).1]
    simp
  have prints : (Text.fingerprintText url).toList = (Text.fingerprintText other).toList := by
    rw [← front url reference, same, front]
  have letters := congrArg String.toList same
  rw [toList_checkoutName, toList_checkoutName, prints] at letters
  exact ⟨String.toList_injective prints,
    String.toList_injective (List.cons.inj (List.append_cancel_left letters)).2⟩

theorem components_checkoutPath (root : Path) (url reference : String) :
    (checkoutPath root url reference).components =
      root.components ++ [checkoutName url reference].map .named :=
  Path.components_child root (isName_checkoutName url reference)

theorem endsInName_checkoutPath (root : Path) (url reference : String) :
    (checkoutPath root url reference).EndsInName :=
  Path.endsInName_child root (isName_checkoutName url reference)

/-- The location of a checkout. -/
def slot (root : Path) (current : Location) (url reference : String) : Location :=
  root.goal current ++ [checkoutName url reference]

theorem goal_checkoutPath (root : Path) (current : Location) (url reference : String) :
    (checkoutPath root url reference).goal current = slot root current url reference :=
  Path.goal_of_names current (components_checkoutPath root url reference)

theorem passable_checkoutPath {disk : Disk} (passable : disk.Passable root)
    (url reference : String) : disk.Passable (checkoutPath root url reference) :=
  (Disk.passable_of_names (components_checkoutPath root url reference)).2 passable

/-- A checkout is there exactly when a directory stands at its location. -/
theorem isDirectory_checkoutPath {disk : Disk} (passable : disk.Passable root)
    (url reference : String) : disk.isDirectory (checkoutPath root url reference) =
      disk.directoryAt (slot root disk.current url reference) := by
  unfold Disk.isDirectory Disk.directoryAt
  rw [Disk.entry_of_name (endsInName_checkoutPath root url reference)
    (passable_checkoutPath passable url reference), goal_checkoutPath]

/-- Different checkouts have locations none of which is below another. -/
theorem slot_apart {current : Location} {first second : String} {rest : Location}
    (different : first ≠ second) :
    ¬root.goal current ++ [first] <+: root.goal current ++ [second] ++ rest := by
  intro below
  rw [List.append_assoc, List.prefix_append_right_inj] at below
  exact different (List.cons_prefix_cons.1 below).1

/-! ## Repositories and requests -/

/-- What a repository holds at a reference: an entry at the names on the way to it. -/
abbrev Snapshot := Location → Option Entry

/-- The file of a source in a repository. -/
def sourcePath (name : String) : Path :=
  ObjectName.place (ObjectName.split name).1 (Path.ofText objectsDirectory) "eo"

/-- The source of the object of a name in a repository. -/
def sourceIn (snapshot : Snapshot) (name : String) : Option String :=
  match snapshot (ObjectName.namesOf (sourcePath name).components) with
  | some (.file (.text text)) => some text
  | _ => none

/-- A request for the source of a name, from a store with a URL and a default reference. -/
structure Visit where
  url : String
  reference : String
  name : String

namespace Visit

/-- The store that is asked. -/
def store (visit : Visit) (root : Path) : ObjectStore := ⟨visit.url, visit.reference, root⟩

/-- The reference that a name is pinned to: its version, or else the default reference. -/
def pinned (visit : Visit) : String := (ObjectName.split visit.name).2.getD visit.reference

end Visit

/-- The clones that opening a checkout makes with success. -/
def clones (store : ObjectStore) (clone : CloneOperation) (reference : String) (disk : Disk) :
    List (String × String) :=
  if disk.isDirectory (checkoutPath store.cacheRoot store.url reference) then []
  else match (store.checkout clone reference disk).1 with
    | .ok _ => [(store.url, reference)]
    | .error _ => []

/-- A disk with checkouts, and the clones that were made with success, the earliest first. -/
structure Served where
  disk : Disk
  cloned : List (String × String)

/-- What a request makes of a disk and of the clones. -/
def Served.visit (root : Path) (clone : CloneOperation) (served : Served) (visit : Visit) :
    Served where
  disk := ((visit.store root).fetch clone visit.name served.disk).2
  cloned := served.cloned ++ clones (visit.store root) clone visit.pinned served.disk

/-- What requests make of a disk, one after the other. -/
def serve (root : Path) (clone : CloneOperation) (start : Disk) (visits : List Visit) : Served :=
  visits.foldl (Served.visit root clone) ⟨start, []⟩

/-! ## What is relied on -/

/-- The directory by which a checkout is known as one, which is no part of the repository. -/
def checkoutMarker : String := ".git"

/-- Cloning below a root makes a directory hold a repository at a reference, or leaves no
directory.  Nothing else changes but that missing directories above may appear. -/
structure Faithful (root : Path) (snapshots : String → String → Snapshot)
    (clone : CloneOperation) : Prop where
  succeeds : ∀ {url reference : String} {before after : Disk}, before.Passable root →
    before.isDirectory (checkoutPath root url reference) = false →
    clone url reference (checkoutPath root url reference) before = (.ok (), after) →
    after.directoryAt ((checkoutPath root url reference).goal before.current) = true ∧
      ∀ name rest, name ≠ checkoutMarker →
        after.entryAt? ((checkoutPath root url reference).goal before.current ++ name :: rest) =
          snapshots url reference (name :: rest)
  fails : ∀ {url reference : String} {before after : Disk} {failure : Failure},
    before.Passable root → before.isDirectory (checkoutPath root url reference) = false →
    clone url reference (checkoutPath root url reference) before = (.error failure, after) →
    after.directoryAt ((checkoutPath root url reference).goal before.current) = false
  frame : ∀ {url reference : String} {before after : Disk} {outcome : Except Failure Unit},
    before.Passable root → before.isDirectory (checkoutPath root url reference) = false →
    clone url reference (checkoutPath root url reference) before = (outcome, after) →
    after.current = before.current ∧ ∀ location,
      ¬(checkoutPath root url reference).goal before.current <+: location →
      after.entryAt? location = before.entryAt? location ∨
        (location <+: (checkoutPath root url reference).goal before.current ∧
          before.entryAt? location = none ∧ after.entryAt? location = some .directory)

/-- A root that can be reached, and has nothing below it. -/
structure Vacant (root : Path) (disk : Disk) : Prop where
  passable : disk.Passable root
  empty : ∀ name rest, disk.entryAt? (root.goal disk.current ++ name :: rest) = none

/-! ## One request -/

variable {snapshots : String → String → Snapshot} {clone : CloneOperation} {start : Disk}
  {current : Location} {served : Served} {visits : List Visit} {text : String}

/-- Opening a checkout finds its directory, clones it, or fails to. -/
theorem checkout_cases (store : ObjectStore) (clone : CloneOperation) (reference : String)
    (disk : Disk) :
    (disk.isDirectory (checkoutPath store.cacheRoot store.url reference) = true ∧
      store.checkout clone reference disk =
        (.ok (checkoutPath store.cacheRoot store.url reference), disk) ∧
      clones store clone reference disk = []) ∨
    (disk.isDirectory (checkoutPath store.cacheRoot store.url reference) = false ∧
      ((∃ next, clone store.url reference (checkoutPath store.cacheRoot store.url reference) disk =
            (.ok (), next) ∧
          store.checkout clone reference disk =
            (.ok (checkoutPath store.cacheRoot store.url reference), next) ∧
          clones store clone reference disk = [(store.url, reference)]) ∨
        ∃ failure next, clone store.url reference
            (checkoutPath store.cacheRoot store.url reference) disk = (.error failure, next) ∧
          store.checkout clone reference disk = (.error failure, next) ∧
          clones store clone reference disk = [])) := by
  unfold clones checkout
  simp only
  generalize checkoutPath store.cacheRoot store.url reference = directory
  cases there : disk.isDirectory directory with
  | true => exact Or.inl ⟨rfl, by simp, by simp⟩
  | false =>
    refine Or.inr ⟨rfl, ?_⟩
    rcases made : clone store.url reference directory disk with ⟨failure | _, next⟩
    · exact Or.inr ⟨failure, next, rfl, by simp, by simp⟩
    · exact Or.inl ⟨next, rfl, by simp, by simp⟩

theorem fetch_disk (store : ObjectStore) (clone : CloneOperation) (name : String) (disk : Disk) :
    (store.fetch clone name disk).2 = (store.checkout clone
      ((ObjectName.split name).2.getD store.reference) disk).2 := by
  unfold fetch
  simp only
  split
  · next opened => rw [opened]
  · next opened =>
    rw [opened]
    simp only
    split <;> rfl

theorem fetch_ok {store : ObjectStore} {name : String} {disk : Disk} :
    (store.fetch clone name disk).1 = .ok text ↔ ∃ directory next,
      store.checkout clone ((ObjectName.split name).2.getD store.reference) disk =
        (.ok directory, next) ∧
      next.readText (ObjectName.place (ObjectName.split name).1 (directory.child objectsDirectory)
        "eo") = .ok text := by
  unfold fetch
  simp only
  split
  · next opened =>
    rw [opened]
    simp
  · next directory next opened =>
    rw [opened]
    constructor
    · intro ran
      split at ran
      · next found read =>
        rw [show found = text from Except.ok.inj ran] at read
        exact ⟨directory, next, rfl, read⟩
      · exact absurd ran (by simp)
    · rintro ⟨_, _, same, read⟩
      obtain ⟨isDirectory, rfl⟩ := Prod.mk.inj same
      obtain rfl := Except.ok.inj isDirectory
      rw [read]

/-- A request finds the directory of its checkout, clones it, or fails to. -/
theorem visit_cases (root : Path) (clone : CloneOperation) (served : Served) (visit : Visit) :
    (served.disk.isDirectory (checkoutPath root visit.url visit.pinned) = true ∧
      (served.visit root clone visit).disk = served.disk ∧
      (served.visit root clone visit).cloned = served.cloned) ∨
    (served.disk.isDirectory (checkoutPath root visit.url visit.pinned) = false ∧
      ((clone visit.url visit.pinned (checkoutPath root visit.url visit.pinned) served.disk =
            (.ok (), (served.visit root clone visit).disk) ∧
          (served.visit root clone visit).cloned = served.cloned ++ [(visit.url, visit.pinned)]) ∨
        ∃ failure, clone visit.url visit.pinned (checkoutPath root visit.url visit.pinned)
            served.disk = (.error failure, (served.visit root clone visit).disk) ∧
          (served.visit root clone visit).cloned = served.cloned)) := by
  have disk : (served.visit root clone visit).disk =
      ((visit.store root).checkout clone visit.pinned served.disk).2 := by
    unfold Served.visit
    simp only
    rw [fetch_disk]
    rfl
  have cloned : (served.visit root clone visit).cloned =
      served.cloned ++ clones (visit.store root) clone visit.pinned served.disk := rfl
  rw [disk, cloned]
  rcases checkout_cases (visit.store root) clone visit.pinned served.disk with
    ⟨there, opened, none⟩ | ⟨missing, ⟨next, made, opened, one⟩ | ⟨failure, next, made, opened, none⟩⟩
  · rw [opened, none, List.append_nil]
    exact Or.inl ⟨there, rfl, rfl⟩
  · rw [opened, one]
    exact Or.inr ⟨missing, Or.inl ⟨made, rfl⟩⟩
  · rw [opened, none, List.append_nil]
    exact Or.inr ⟨missing, Or.inr ⟨failure, made, rfl⟩⟩

/-! ## What holds between requests -/

/-- The checkouts of a disk are those of the clones, each of which has its own. -/
structure Serves (root : Path) (current : Location) (snapshots : String → String → Snapshot)
    (served : Served) : Prop where
  isCurrent : served.disk.current = current
  passable : served.disk.Passable root
  held : ∀ made ∈ served.cloned,
    served.disk.directoryAt (slot root current made.1 made.2) = true ∧
      ∀ name rest, name ≠ checkoutMarker →
        served.disk.entryAt? (slot root current made.1 made.2 ++ name :: rest) =
          snapshots made.1 made.2 (name :: rest)
  known : ∀ name, served.disk.directoryAt (root.goal current ++ [name]) = true →
    ∃ made ∈ served.cloned, checkoutName made.1 made.2 = name
  distinct : (served.cloned.map fun made => checkoutName made.1 made.2).Nodup

theorem Vacant.serves (vacant : Vacant root start) :
    Serves root start.current snapshots ⟨start, []⟩ where
  isCurrent := rfl
  passable := vacant.passable
  held := by simp
  known name here := by
    rw [Disk.directoryAt_iff, vacant.empty name []] at here
    exact absurd here (by simp)
  distinct := List.nodup_nil

/-- What a path to a vacant root leaves upwards is not below the root. -/
theorem Vacant.apart (vacant : Vacant root start) {passed : Location}
    (member : passed ∈ root.left start.current) (name : String) (rest : Location) :
    passed ≠ root.goal start.current ++ name :: rest := by
  intro same
  have here := vacant.passable passed member
  rw [Disk.directoryAt_iff, same, vacant.empty name rest] at here
  exact absurd here (by simp)

/-- A clone leaves the other checkouts and the way to the root as they are. -/
theorem Serves.frame {after : Disk} {outcome : Except Failure Unit}
    (faithful : Faithful root snapshots clone) (serves : Serves root current snapshots served)
    (apart : ∀ passed ∈ root.left current, ∀ name rest, passed ≠ root.goal current ++ name :: rest)
    (missing : served.disk.isDirectory (checkoutPath root url reference) = false)
    (made : clone url reference (checkoutPath root url reference) served.disk = (outcome, after)) :
    after.current = current ∧ after.Passable root ∧
      ∀ name rest, name ≠ checkoutName url reference →
        after.entryAt? (root.goal current ++ [name] ++ rest) =
          served.disk.entryAt? (root.goal current ++ [name] ++ rest) := by
  obtain ⟨sameCurrent, elsewhere⟩ := faithful.frame serves.passable missing made
  rw [goal_checkoutPath, serves.isCurrent] at elsewhere
  have isCurrent : after.current = current := sameCurrent.trans serves.isCurrent
  refine ⟨isCurrent, fun passed member => ?_, fun name rest different => ?_⟩
  · rw [isCurrent] at member
    have here := serves.passable passed (by rw [serves.isCurrent]; exact member)
    have notBelow : ¬slot root current url reference <+: passed := by
      rintro ⟨rest, same⟩
      refine apart passed member (checkoutName url reference) rest ?_
      rw [← same]
      simp [slot]
    rw [Disk.directoryAt_iff] at here ⊢
    rcases elsewhere passed notBelow with same | ⟨_, none, _⟩
    · rw [same, here]
    · rw [here] at none
      exact absurd none (by simp)
  · rcases elsewhere (root.goal current ++ [name] ++ rest) (slot_apart (Ne.symm different)) with
      same | ⟨above, _, _⟩
    · exact same
    · unfold slot at above
      rw [List.append_assoc, List.prefix_append_right_inj] at above
      exact absurd (List.cons_prefix_cons.1 above).1 different

/-- What clones hold is held where nothing changes outside of another checkout. -/
theorem Serves.held_congr {after : Disk} {changed : String}
    (serves : Serves root current snapshots served)
    (same : ∀ name rest, name ≠ changed → after.entryAt? (root.goal current ++ [name] ++ rest) =
      served.disk.entryAt? (root.goal current ++ [name] ++ rest))
    (others : ∀ made ∈ served.cloned, checkoutName made.1 made.2 ≠ changed) :
    ∀ made ∈ served.cloned, after.directoryAt (slot root current made.1 made.2) = true ∧
      ∀ name rest, name ≠ checkoutMarker →
        after.entryAt? (slot root current made.1 made.2 ++ name :: rest) =
          snapshots made.1 made.2 (name :: rest) := by
  intro made member
  have different := others made member
  obtain ⟨there, contents⟩ := serves.held made member
  refine ⟨?_, fun name rest plain => ?_⟩
  · have unchanged := same _ [] different
    rw [List.append_nil] at unchanged
    rw [Disk.directoryAt_iff] at there ⊢
    exact unchanged.trans there
  · exact (same _ (name :: rest) different).trans (contents name rest plain)

theorem Serves.known_congr {after : Disk} {changed name : String}
    (serves : Serves root current snapshots served)
    (same : ∀ name rest, name ≠ changed → after.entryAt? (root.goal current ++ [name] ++ rest) =
      served.disk.entryAt? (root.goal current ++ [name] ++ rest))
    (different : name ≠ changed)
    (here : after.directoryAt (root.goal current ++ [name]) = true) :
    ∃ made ∈ served.cloned, checkoutName made.1 made.2 = name := by
  have unchanged := same name [] different
  rw [List.append_nil] at unchanged
  rw [Disk.directoryAt_iff, unchanged, ← Disk.directoryAt_iff] at here
  exact serves.known name here

/-- A request keeps the checkouts those of the clones. -/
theorem Serves.visit (faithful : Faithful root snapshots clone)
    (apart : ∀ passed ∈ root.left current, ∀ name rest, passed ≠ root.goal current ++ name :: rest)
    (serves : Serves root current snapshots served) (visit : Visit) :
    Serves root current snapshots (served.visit root clone visit) := by
  have cases_ := visit_cases root clone served visit
  generalize served.visit root clone visit = result at cases_ ⊢
  -- Older clones have names other than that of a directory that was missing.
  have others : served.disk.isDirectory (checkoutPath root visit.url visit.pinned) = false →
      ∀ made ∈ served.cloned, checkoutName made.1 made.2 ≠ checkoutName visit.url visit.pinned := by
    intro missing made member same
    rw [isDirectory_checkoutPath serves.passable, serves.isCurrent] at missing
    unfold slot at missing
    rw [← same] at missing
    exact absurd (serves.held made member).1 (by unfold slot; rw [missing]; decide)
  rcases cases_ with ⟨_, isDisk, isCloned⟩ | ⟨missing, ⟨made, isCloned⟩ | ⟨failure, made, isCloned⟩⟩
  · exact ⟨isDisk ▸ serves.isCurrent, isDisk ▸ serves.passable,
      by rw [isDisk, isCloned]; exact serves.held, by rw [isDisk, isCloned]; exact serves.known,
      isCloned ▸ serves.distinct⟩
  · obtain ⟨isCurrent, passable, same⟩ := serves.frame faithful apart missing made
    obtain ⟨directory, holds⟩ := faithful.succeeds serves.passable missing made
    rw [goal_checkoutPath, serves.isCurrent] at directory holds
    have kept := serves.held_congr same (others missing)
    refine ⟨isCurrent, passable, fun old member => ?_, fun name here => ?_, ?_⟩
    · rw [isCloned] at member
      rcases List.mem_append.1 member with older | new
      · exact kept old older
      · rw [List.mem_singleton.1 new]
        exact ⟨directory, holds⟩
    · rw [isCloned]
      by_cases isNew : name = checkoutName visit.url visit.pinned
      · exact ⟨_, List.mem_append_right _ (List.mem_singleton_self _), isNew.symm⟩
      · obtain ⟨old, member, isName⟩ := serves.known_congr same isNew here
        exact ⟨old, List.mem_append_left _ member, isName⟩
    · rw [isCloned, List.map_append, List.nodup_append]
      refine ⟨serves.distinct, by simp, fun name member last isLast => ?_⟩
      obtain ⟨old, older, rfl⟩ := List.mem_map.1 member
      rw [List.mem_singleton.1 isLast]
      exact others missing old older
  · obtain ⟨isCurrent, passable, same⟩ := serves.frame faithful apart missing made
    have gone := faithful.fails serves.passable missing made
    rw [goal_checkoutPath, serves.isCurrent] at gone
    refine ⟨isCurrent, passable, ?_, fun name here => ?_, isCloned ▸ serves.distinct⟩
    · rw [isCloned]
      exact serves.held_congr same (others missing)
    · rw [isCloned]
      by_cases isNew : name = checkoutName visit.url visit.pinned
      · rw [isNew] at here
        unfold slot at gone
        rw [gone] at here
        exact absurd here (by simp)
      · exact serves.known_congr same isNew here

theorem serve_concat (root : Path) (clone : CloneOperation) (start : Disk) (earlier : List Visit)
    (visit : Visit) : serve root clone start (earlier ++ [visit]) =
      (serve root clone start earlier).visit root clone visit := by
  unfold serve
  rw [List.foldl_append]
  rfl

/-- Requests keep the checkouts those of the clones. -/
theorem serves_serve (faithful : Faithful root snapshots clone) (vacant : Vacant root start)
    (visits : List Visit) :
    Serves root start.current snapshots (serve root clone start visits) := by
  induction visits using List.reverseRecOn with
  | nil => exact vacant.serves
  | append_singleton earlier visit inductionHypothesis =>
    rw [serve_concat]
    exact inductionHypothesis.visit faithful (fun _ member => vacant.apart member) visit

/-- Only what was asked for is cloned. -/
theorem mem_cloned (visits : List Visit) :
    ∀ made ∈ (serve root clone start visits).cloned, ∃ visit ∈ visits, visit.url = made.1 := by
  induction visits using List.reverseRecOn with
  | nil => exact fun made member => absurd member List.not_mem_nil
  | append_singleton earlier visit inductionHypothesis =>
    intro made member
    have older : made ∈ (serve root clone start earlier).cloned →
        ∃ asked ∈ earlier ++ [visit], asked.url = made.1 := by
      intro member
      obtain ⟨asked, among, same⟩ := inductionHypothesis made member
      exact ⟨asked, List.mem_append_left _ among, same⟩
    rw [serve_concat] at member
    rcases visit_cases root clone (serve root clone start earlier) visit with
      ⟨_, _, isCloned⟩ | ⟨_, ⟨_, isCloned⟩ | ⟨_, _, isCloned⟩⟩
    all_goals rw [isCloned] at member
    · exact older member
    · rcases List.mem_append.1 member with before | new
      · exact older before
      · exact ⟨visit, by simp, by rw [List.mem_singleton.1 new]⟩
    · exact older member

/-! ## What a request reads -/

theorem namesOf_sourcePath {name : String} (relative : Relative (ObjectName.split name).1) :
    ObjectName.namesOf (sourcePath name).components =
      objectsDirectory :: inside "eo" (ObjectName.split name).1 := by
  have ends : (Path.ofText objectsDirectory).EndsInName := ⟨[], "objects", by decide, by decide⟩
  have directory : (Path.ofText objectsDirectory).components = [.named objectsDirectory] := by
    decide
  have eo : ObjectName.IsExtension "eo" := by decide
  unfold sourcePath
  rw [(ObjectName.components_place_inside eo.noSlash (eo.dotless.exists_char eo.some_) relative
    ends).1, directory]
  exact Build.namesOf_named (objectsDirectory :: inside "eo" (ObjectName.split name).1)

/-- A checkout holds the source of a name where the repository has it. -/
theorem Serves.readText {made : String × String} {name : String}
    (serves : Serves root current snapshots served) (member : made ∈ served.cloned)
    (relative : Relative (ObjectName.split name).1) :
    served.disk.readText (ObjectName.place (ObjectName.split name).1
        ((checkoutPath root made.1 made.2).child objectsDirectory) "eo") = .ok text ↔
      sourceIn (snapshots made.1 made.2) name = some text := by
  have objects : IsName objectsDirectory := by decide
  have eo : ObjectName.IsExtension "eo" := by decide
  obtain ⟨components, ends⟩ := ObjectName.components_place_inside eo.noSlash
    (eo.dotless.exists_char eo.some_) relative
    (Path.endsInName_child (checkoutPath root made.1 made.2) objects)
  rw [Path.components_child _ objects, components_checkoutPath, List.append_assoc,
    List.append_assoc] at components
  have behind : (ObjectName.place (ObjectName.split name).1
      ((checkoutPath root made.1 made.2).child objectsDirectory) "eo").components =
        root.components ++ (checkoutName made.1 made.2 :: objectsDirectory ::
          inside "eo" (ObjectName.split name).1).map .named := components
  have passable : served.disk.Passable (ObjectName.place (ObjectName.split name).1
      ((checkoutPath root made.1 made.2).child objectsDirectory) "eo") :=
    (Disk.passable_of_names behind).2 serves.passable
  have location := Path.goal_of_names current behind
  rw [Disk.readText_eq_ok, Disk.entry_of_name ends passable, serves.isCurrent, location]
  have contents := (serves.held made member).2 objectsDirectory
    (inside "eo" (ObjectName.split name).1) (by decide)
  unfold slot at contents
  rw [List.append_assoc] at contents
  rw [show root.goal current ++ checkoutName made.1 made.2 :: objectsDirectory ::
      inside "eo" (ObjectName.split name).1 = root.goal current ++ ([checkoutName made.1 made.2] ++
      objectsDirectory :: inside "eo" (ObjectName.split name).1) from rfl, contents]
  unfold sourceIn
  rw [namesOf_sourcePath relative]
  split
  · next found => simp [found]
  · next other =>
    refine iff_of_false (fun found => other text found) (by simp)

/-- A checkout is opened exactly when its directory is there in the end. -/
theorem checkout_ok_iff (faithful : Faithful root snapshots clone)
    (serves : Serves root current snapshots served) (visit : Visit) {directory : Path} {next : Disk} :
    (visit.store root).checkout clone visit.pinned served.disk = (.ok directory, next) ↔
      directory = checkoutPath root visit.url visit.pinned ∧
        next = (served.visit root clone visit).disk ∧
        (served.visit root clone visit).disk.directoryAt
          (slot root current visit.url visit.pinned) = true := by
  have isDisk : (served.visit root clone visit).disk =
      ((visit.store root).checkout clone visit.pinned served.disk).2 := by
    unfold Served.visit
    simp only
    rw [fetch_disk]
    rfl
  rw [isDisk]
  rcases checkout_cases (visit.store root) clone visit.pinned served.disk with
    ⟨there, opened, _⟩ | ⟨missing, ⟨last, made, opened, _⟩ | ⟨failure, last, made, opened, _⟩⟩
  · have here : served.disk.isDirectory (checkoutPath root visit.url visit.pinned) = true := there
    rw [isDirectory_checkoutPath serves.passable, serves.isCurrent] at here
    rw [opened, Prod.mk.injEq, Except.ok.injEq]
    exact ⟨fun same => ⟨same.1.symm, same.2.symm, here⟩, fun same => ⟨same.1.symm, same.2.1.symm⟩⟩
  · have here := (faithful.succeeds serves.passable missing made).1
    rw [goal_checkoutPath, serves.isCurrent] at here
    rw [opened, Prod.mk.injEq, Except.ok.injEq]
    exact ⟨fun same => ⟨same.1.symm, same.2.symm, here⟩, fun same => ⟨same.1.symm, same.2.1.symm⟩⟩
  · have gone := faithful.fails serves.passable missing made
    rw [goal_checkoutPath, serves.isCurrent] at gone
    rw [opened]
    refine iff_of_false (by simp) fun same => ?_
    exact Bool.false_ne_true (gone.symm.trans same.2.2)

/-- A request answers with a source exactly when the clone whose checkout it takes has it. -/
theorem fetch_visit_iff (faithful : Faithful root snapshots clone) (vacant : Vacant root start)
    {earlier : List Visit} {visit : Visit} (relative : Relative (ObjectName.split visit.name).1) :
    ((visit.store root).fetch clone visit.name (serve root clone start earlier).disk).1 = .ok text ↔
      ∃ made ∈ (serve root clone start (earlier ++ [visit])).cloned,
        checkoutName made.1 made.2 = checkoutName visit.url visit.pinned ∧
          sourceIn (snapshots made.1 made.2) visit.name = some text := by
  have before := serves_serve faithful vacant earlier
  have after := serves_serve faithful vacant (earlier ++ [visit])
  rw [serve_concat] at after ⊢
  have samePath : ∀ made : String × String,
      checkoutName made.1 made.2 = checkoutName visit.url visit.pinned →
      checkoutPath root made.1 made.2 = checkoutPath root visit.url visit.pinned :=
    fun made same => congrArg root.child same
  have isPinned : (ObjectName.split visit.name).2.getD (visit.store root).reference =
      visit.pinned := rfl
  rw [fetch_ok, isPinned]
  simp only [checkout_ok_iff faithful before visit]
  constructor
  · rintro ⟨directory, next, opened, read⟩
    obtain ⟨isPath, isDisk, there⟩ := opened
    obtain ⟨made, member, same⟩ := after.known _ there
    refine ⟨made, member, same, (after.readText member relative).1 ?_⟩
    rw [samePath made same, ← isPath, ← isDisk]
    exact read
  · rintro ⟨made, member, same, found⟩
    have read := (after.readText member relative).2 found
    rw [samePath made same] at read
    have there := (after.held made member).1
    unfold slot at there
    rw [same] at there
    exact ⟨_, _, ⟨rfl, rfl, there⟩, read⟩

/-- A request is answered from the first clone of its repository whose reference is written like
the one it is pinned to, and no repository is cloned twice at one reference.  So an answer is the
one of the pinned reference exactly when the clones that were there have the same source. -/
theorem fetch_serves_first_clone (faithful : Faithful root snapshots clone)
    (vacant : Vacant root start)
    (hashes : ∀ one ∈ visits, ∀ other ∈ visits,
      Text.fingerprintText one.url = Text.fingerprintText other.url → one.url = other.url) :
    (serve root clone start visits).cloned.Nodup ∧
      ∀ earlier visit later, visits = earlier ++ visit :: later →
        Relative (ObjectName.split visit.name).1 → ∀ text,
        (((visit.store root).fetch clone visit.name (serve root clone start earlier).disk).1 =
            .ok text ↔
          ∃ reference, (visit.url, reference) ∈
              (serve root clone start (earlier ++ [visit])).cloned ∧
            safeReference reference = safeReference visit.pinned ∧
            sourceIn (snapshots visit.url reference) visit.name = some text) ∧
        (((visit.store root).fetch clone visit.name (serve root clone start earlier).disk).1 =
            .ok text →
          (sourceIn (snapshots visit.url visit.pinned) visit.name = some text ↔
            ∀ reference, (visit.url, reference) ∈ (serve root clone start earlier).cloned →
              safeReference reference = safeReference visit.pinned →
              sourceIn (snapshots visit.url reference) visit.name =
                sourceIn (snapshots visit.url visit.pinned) visit.name)) := by
  refine ⟨(serves_serve faithful vacant visits).distinct.of_map _, ?_⟩
  intro earlier visit later split relative text
  have after := serves_serve faithful vacant (earlier ++ [visit])
  have among : ∀ one ∈ earlier ++ [visit], one ∈ visits := by
    intro one member
    rw [split]
    rcases List.mem_append.1 member with before | here
    · exact List.mem_append_left _ before
    · rw [List.mem_singleton.1 here]
      exact List.mem_append_right _ List.mem_cons_self
  have answers : ((visit.store root).fetch clone visit.name
      (serve root clone start earlier).disk).1 = .ok text ↔
        ∃ reference, (visit.url, reference) ∈ (serve root clone start (earlier ++ [visit])).cloned ∧
          safeReference reference = safeReference visit.pinned ∧
          sourceIn (snapshots visit.url reference) visit.name = some text := by
    rw [fetch_visit_iff faithful vacant relative]
    constructor
    · rintro ⟨⟨url, reference⟩, member, same, found⟩
      obtain ⟨prints, written⟩ := checkoutName_inj same
      obtain ⟨asked, inVisits, isUrl⟩ := mem_cloned _ _ member
      have sameUrl : url = visit.url := by
        have asks : asked.url = url := isUrl
        rw [← asks] at prints ⊢
        exact hashes asked (among asked inVisits) visit (among visit (by simp)) prints
      rw [sameUrl] at member found
      exact ⟨reference, member, written, found⟩
    · rintro ⟨reference, member, written, found⟩
      refine ⟨_, member, ?_, found⟩
      unfold checkoutName
      rw [written]
  -- Two clones of one repository with one spelling would share a checkout.
  have unique : ∀ {first second : String},
      (visit.url, first) ∈ (serve root clone start (earlier ++ [visit])).cloned →
      (visit.url, second) ∈ (serve root clone start (earlier ++ [visit])).cloned →
      safeReference first = safeReference second → first = second := by
    intro first second inFirst inSecond written
    have sameName : checkoutName visit.url first = checkoutName visit.url second := by
      unfold checkoutName
      rw [written]
    exact congrArg Prod.snd (List.inj_on_of_nodup_map after.distinct inFirst inSecond sameName)
  have older : ∀ {reference}, (visit.url, reference) ∈ (serve root clone start earlier).cloned →
      (visit.url, reference) ∈ (serve root clone start (earlier ++ [visit])).cloned := by
    intro reference member
    rw [serve_concat]
    exact List.mem_append_left _ member
  refine ⟨answers, fun answered => ?_⟩
  obtain ⟨tenant, member, written, found⟩ := answers.1 answered
  constructor
  · intro own reference before same
    rw [unique (older before) member (same.trans written.symm), found, own]
  · intro agree
    have here : (visit.url, tenant) ∈ (serve root clone start earlier).cloned ∨
        tenant = visit.pinned := by
      rw [serve_concat] at member
      rcases visit_cases root clone (serve root clone start earlier) visit with
        ⟨_, _, isCloned⟩ | ⟨_, ⟨_, isCloned⟩ | ⟨_, _, isCloned⟩⟩
      all_goals rw [isCloned] at member
      · exact Or.inl member
      · rcases List.mem_append.1 member with before | new
        · exact Or.inl before
        · exact Or.inr (congrArg Prod.snd (List.mem_singleton.1 new))
      · exact Or.inl member
    rcases here with before | isPinned
    · rw [← agree tenant before written]
      exact found
    · rw [← isPinned]
      exact found

/-! ## References that are written alike -/

/-- Clones repositories with one object, `a`, whose source is known for some references. -/
def cloneOf (sources : String → String → Option String) : CloneOperation :=
  fun url reference directory disk =>
    let place := directory.goal disk.current
    match sources url reference with
    | none => (.error (.gitClone url reference "no such reference"), disk.erase place)
    | some text =>
      (.ok (), ((((disk.erase place).put place .directory).put (place ++ [checkoutMarker])
        .directory).put (place ++ ["objects"]) .directory).put (place ++ ["objects", "a.eo"])
        (.file (.text text)))

/-- What these repositories hold. -/
def snapshotOf (sources : String → String → Option String) (url reference : String) : Snapshot :=
  fun names => match sources url reference with
    | none => none
    | some text =>
      if names = ["objects", "a.eo"] then some (.file (.text text))
      else if names = ["objects"] then some .directory
      else none

/-- A disk on which a directory holds nothing but the marker of a checkout and the object. -/
def checkedOut (disk : Disk) (place : Location) (text : String) : Disk :=
  ((((disk.erase place).put place .directory).put (place ++ [checkoutMarker]) .directory).put
    (place ++ ["objects"]) .directory).put (place ++ ["objects", "a.eo"]) (.file (.text text))

theorem cloneOf_ends {sources : String → String → Option String} {url reference : String}
    {directory : Path} {before after : Disk} {outcome : Except Failure Unit}
    (made : cloneOf sources url reference directory before = (outcome, after)) :
    (sources url reference = none ∧ outcome ≠ .ok () ∧
      after = before.erase (directory.goal before.current)) ∨
    ∃ text, sources url reference = some text ∧ outcome = .ok () ∧
      after = checkedOut before (directory.goal before.current) text := by
  unfold cloneOf at made
  simp only at made
  cases known : sources url reference with
  | none =>
    rw [known] at made
    obtain ⟨rfl, rfl⟩ := Prod.mk.inj made
    exact Or.inl ⟨rfl, by simp, rfl⟩
  | some text =>
    rw [known] at made
    obtain ⟨rfl, rfl⟩ := Prod.mk.inj made
    exact Or.inr ⟨text, rfl, rfl, rfl⟩

theorem entryAt?_erase_apart {disk : Disk} {place location : Location} (apart : ¬place <+: location) :
    (disk.erase place).entryAt? location = disk.entryAt? location := by
  rw [Disk.entryAt?_erase, if_neg]
  exact fun below => apart (List.isPrefixOf_iff_prefix.1 below.2)

section CheckedOut

variable {disk : Disk} {place : Location} (text : String)

theorem checkedOut_below (some_ : place ≠ []) (names : List String) :
    (checkedOut disk place text).entryAt? (place ++ names) =
      if names = ["objects", "a.eo"] then some (.file (.text text))
      else if names = ["objects"] ∨ names = [checkoutMarker] ∨ names = [] then some .directory
      else none := by
  have behind : ∀ more, place ++ more ≠ [] := fun more => List.append_ne_nil_of_left_ne_nil some_ more
  unfold checkedOut
  simp only [Disk.entryAt?_put _ (behind _), Disk.entryAt?_put _ some_, Disk.entryAt?_erase,
    List.append_right_inj, List.append_right_eq_self]
  by_cases object : names = ["objects", "a.eo"]
  · simp [object]
  by_cases objects : names = ["objects"]
  · simp [objects]
  by_cases marker : names = [checkoutMarker]
  · simp [marker]
  by_cases empty : names = []
  · simp [empty]
  simp [object, objects, marker, empty, some_]

theorem checkedOut_apart (some_ : place ≠ []) {location : Location} (apart : ¬place <+: location) :
    (checkedOut disk place text).entryAt? location = disk.entryAt? location := by
  have behind : ∀ more, place ++ more ≠ [] := fun more => List.append_ne_nil_of_left_ne_nil some_ more
  have different : ∀ rest, location ≠ place ++ rest := by
    rintro rest rfl
    exact apart (List.prefix_append place rest)
  have notPlace : location ≠ place := by simpa using different []
  unfold checkedOut
  rw [Disk.entryAt?_put _ (behind _), if_neg (different _), Disk.entryAt?_put _ (behind _),
    if_neg (different _), Disk.entryAt?_put _ (behind _), if_neg (different _),
    Disk.entryAt?_put _ some_, if_neg notPlace, entryAt?_erase_apart apart]

end CheckedOut

theorem faithful_cloneOf (root : Path) (sources : String → String → Option String) :
    Faithful root (snapshotOf sources) (cloneOf sources) := by
  have some_ : ∀ url reference current, (checkoutPath root url reference).goal current ≠ [] := by
    intro url reference current
    rw [goal_checkoutPath]
    simp [slot]
  constructor
  · intro url reference before after _ _ made
    rcases cloneOf_ends made with ⟨_, failed, _⟩ | ⟨text, known, _, rfl⟩
    · exact absurd rfl failed
    have below := @checkedOut_below before _ text (some_ url reference before.current)
    refine ⟨Disk.directoryAt_iff.2 ?_, fun name rest plain => ?_⟩
    · simpa using below []
    · rw [below]
      unfold snapshotOf
      simp [known, plain]
  · intro url reference before after failure _ _ made
    rcases cloneOf_ends made with ⟨_, _, rfl⟩ | ⟨_, _, wrong, _⟩
    · rw [← Bool.not_eq_true, Disk.directoryAt_iff, Disk.entryAt?_erase]
      simp [some_]
    · exact absurd wrong (by simp)
  · intro url reference before after outcome _ _ made
    rcases cloneOf_ends made with ⟨_, _, rfl⟩ | ⟨text, _, _, rfl⟩
    · exact ⟨rfl, fun location apart => Or.inl (entryAt?_erase_apart apart)⟩
    · exact ⟨rfl, fun location apart => Or.inl
        (checkedOut_apart text (some_ url reference before.current) apart)⟩

/-- A repository whose branches `feature/x` and `feature-x` have different sources. -/
def dashedSources (_ reference : String) : Option String :=
  if reference = "feature/x" then some "slash"
  else if reference = "feature-x" then some "dash"
  else none

/-- An empty cache root. -/
def dashedStart : Disk := ⟨[(["w"], .directory), (["w", "c"], .directory)], ["w"], []⟩

/-- A request at the default reference, and one at the version `feature-x`. -/
def dashedVisits : List Visit := [⟨"u", "feature/x", "a"⟩, ⟨"u", "feature/x", "a|feature-x"⟩]

theorem vacant_dashed : Vacant (.ofText "c") dashedStart where
  passable := by
    have none : (Path.ofText "c").left dashedStart.current = [] := by decide
    unfold Disk.Passable
    rw [none]
    simp
  empty name rest := by
    have goal : (Path.ofText "c").goal dashedStart.current = ["w", "c"] := by decide
    rw [goal]
    simp [Disk.entryAt?, dashedStart, List.lookup_cons]

theorem hashes_dashed : ∀ one ∈ dashedVisits, ∀ other ∈ dashedVisits,
    Text.fingerprintText one.url = Text.fingerprintText other.url → one.url = other.url := by
  simp [dashedVisits]

/-- The second request is answered from the clone of the first. -/
theorem dashed_serves_first_clone :
    (serve (.ofText "c") (cloneOf dashedSources) dashedStart dashedVisits).cloned.Nodup ∧
      ((ObjectStore.fetch ⟨"u", "feature/x", .ofText "c"⟩ (cloneOf dashedSources) "a"
          dashedStart).1 = .ok "slash" ↔
        ∃ reference, ("u", reference) ∈ (serve (.ofText "c") (cloneOf dashedSources) dashedStart
            [⟨"u", "feature/x", "a"⟩]).cloned ∧
          safeReference reference = safeReference "feature/x" ∧
          sourceIn (snapshotOf dashedSources "u" reference) "a" = some "slash") := by
  obtain ⟨once, answers⟩ := fetch_serves_first_clone (faithful_cloneOf (.ofText "c") dashedSources)
    vacant_dashed hashes_dashed
  exact ⟨once, (answers [] ⟨"u", "feature/x", "a"⟩ _ rfl
    (ObjectName.relative_of_noSlash (by decide)) "slash").1⟩

/-- A version is answered with the source of another branch that is written alike. -/
theorem reference_mistaken :
    ¬∀ (root : Path) (snapshots : String → String → Snapshot) (clone : CloneOperation)
      (start : Disk) (visits : List Visit), Faithful root snapshots clone → Vacant root start →
      (∀ one ∈ visits, ∀ other ∈ visits,
        Text.fingerprintText one.url = Text.fingerprintText other.url → one.url = other.url) →
      ∀ earlier visit later text, visits = earlier ++ visit :: later →
        ((visit.store root).fetch clone visit.name (serve root clone start earlier).disk).1 =
          .ok text →
        sourceIn (snapshots visit.url visit.pinned) visit.name = some text := by
  intro pinned
  have answer : ((Visit.store ⟨"u", "feature/x", "a|feature-x"⟩ (.ofText "c")).fetch
      (cloneOf dashedSources) "a|feature-x" (serve (.ofText "c") (cloneOf dashedSources) dashedStart
        [⟨"u", "feature/x", "a"⟩]).disk).1 = .ok "slash" := by decide +kernel
  have source := pinned _ _ _ _ _ (faithful_cloneOf (.ofText "c") dashedSources) vacant_dashed
    hashes_dashed [⟨"u", "feature/x", "a"⟩] ⟨"u", "feature/x", "a|feature-x"⟩ [] "slash" rfl answer
  exact absurd source (by decide +kernel)

end ObjectStore

end EoAssembly
