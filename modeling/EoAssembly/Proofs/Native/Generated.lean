import EoAssembly.Native.Library
import EoAssembly.Proofs.Build.Step
import EoAssembly.Proofs.Disk.Confined
import EoAssembly.Proofs.ObjectName
import EoAssembly.Proofs.Ordered

/-!
Contract: what collecting the native inserts leaves on the disk.

Every generated file has a place of its own behind the target, so writing one keeps the
others.  When the inserts of the documents are collected, the code of each stands in the
two files of its function, and beside the generated files nothing has changed.

Owns `Library.File`, `Library.Gathered`, and the invariant of a draft.

Does not own: what is read from the table of names.
-/

namespace EoAssembly

open Disk (Confined)
open Path (IsName Component)

theorem ObjectName.slashless_nativeLetters {c d : Char} (member : d ∈ nativeLetters c) : d ≠ '/' := by
  unfold nativeLetters at member
  split at member
  · next letter =>
    rw [List.mem_singleton.1 member]
    rintro rfl
    exact absurd letter (by decide)
  · split at member
    · next upper =>
      have shifted : ∀ k < 26, Char.ofNat (k + 97) ≠ '/' := by decide
      have low : 65 ≤ c.toNat := upper.1
      have high : c.toNat ≤ 90 := upper.2
      have small := shifted (c.toNat - 65) (by omega)
      rw [List.mem_singleton.1 member, show c.toNat + 32 = c.toNat - 65 + 97 by omega]
      exact small
    · split at member
      · rw [List.mem_singleton.1 member]
        decide
      · split at member
        · revert d
          simp
        · rw [List.mem_singleton.1 member]
          decide

namespace Native.Library

variable {target : Path} {current : Location} {n m : Nat}

/-! ## Generated files -/

/-- A file that collecting inserts may write. -/
inductive File where
  /-- The code of an insert as found. -/
  | code (number : Nat)
  /-- The source of the library with that code. -/
  | source (number : Nat)
  /-- The source that declares the others. -/
  | modules
  | manifest
  | names
  deriving DecidableEq

/-- Where a generated file is. -/
def File.path (target : Path) : File → Path
  | .code number => (codes target).child (functionName target number ++ ".rs")
  | .source number => ((directory target).child "src").child (functionName target number ++ ".rs")
  | .modules => (directory target).child "src/lib.rs"
  | .manifest => (directory target).child "Cargo.toml"
  | .names => namesFile target

/-- The names behind the target of a generated file. -/
def File.below (target : Path) : File → List String
  | .code number => ["binarize", "codes", functionName target number ++ ".rs"]
  | .source number => ["Lib", "src", functionName target number ++ ".rs"]
  | .modules => ["Lib", "src", "lib.rs"]
  | .manifest => ["Lib", "Cargo.toml"]
  | .names => ["names.json"]

/-- Numbers are written differently. -/
theorem number_inj {n m : Nat} (same : toString n = toString m) : n = m := by
  have digits : Nat.toDigits 10 n = Nat.toDigits 10 m := by
    rw [Nat.toString_eq_ofList_toDigits, Nat.toString_eq_ofList_toDigits] at same
    exact String.ofList_injective same
  rw [← Nat.ofDigitChars_ten_toDigits (n := n), digits, Nat.ofDigitChars_ten_toDigits]

theorem toList_functionName (target : Path) (number : Nat) :
    (functionName target number).toList =
      (ObjectName.nativeStem target).toList ++ (toString number).toList := by
  unfold functionName
  rw [String.toList_append]

theorem functionName_inj (same : functionName target n = functionName target m) : n = m := by
  have letters := congrArg String.toList same
  rw [toList_functionName, toList_functionName] at letters
  exact number_inj (String.toList_injective (List.append_cancel_left letters))

theorem isDigit_toString {c : Char} (member : c ∈ (toString n).toList) : c.isDigit = true := by
  rw [Nat.toString_eq_ofList_toDigits, String.toList_ofList] at member
  exact Nat.isDigit_of_mem_toDigits (by decide) (by decide) member

/-- The letters of a number, of which there is a last one. -/
theorem toString_last (n : Nat) : ∃ front last, (toString n).toList = front ++ [last] ∧
    last.isDigit = true := by
  have some_ : (toString n).toList ≠ [] := by
    rw [Nat.toString_eq_ofList_toDigits, String.toList_ofList]
    exact Nat.toDigits_ne_nil
  refine ⟨_, _, (List.dropLast_append_getLast some_).symm, ?_⟩
  exact isDigit_toString (List.getLast_mem some_)

/-- A function is named by letters that stand in file names, the last of them a digit. -/
theorem isName_function (target : Path) (number : Nat) :
    IsName (functionName target number ++ ".rs") := by
  have chars : (functionName target number ++ ".rs").toList =
      (ObjectName.nativeStem target).toList ++ (toString number).toList ++ ".rs".toList := by
    rw [String.toList_append, toList_functionName]
  apply ObjectName.isName_of_char (c := 'r')
  · rw [chars]
    simp
  · decide
  · intro c member
    rw [chars, List.mem_append, List.mem_append] at member
    rw [beq_eq_false_iff_ne]
    rcases member with (stem | digit) | tail
    · unfold ObjectName.nativeStem at stem
      rw [String.toList_ofList] at stem
      obtain ⟨letter, _, among⟩ := List.mem_flatMap.1 stem
      exact ObjectName.slashless_nativeLetters among
    · rintro rfl
      exact absurd (isDigit_toString digit) (by decide)
    · revert c
      simp

theorem File.components_path (file : File) :
    (file.path target).components =
      target.components ++ (file.below target).map Component.named := by
  have plain : ∀ name ∈ ["binarize", "codes", "Lib", "src", "Cargo.toml", "names.json"],
      IsName name := by decide
  have child : ∀ (directory : Path) (name : String), IsName name →
      (directory.child name).components = directory.components ++ [.named name] :=
    fun directory _ isName => Path.components_child directory isName
  cases file with
  | code number =>
    unfold path codes
    rw [child _ _ (isName_function target number), child _ _ (plain "codes" (by simp)),
      child _ _ (plain "binarize" (by simp))]
    simp [below]
  | source number =>
    unfold path directory
    rw [child _ _ (isName_function target number), child _ _ (plain "src" (by simp)),
      child _ _ (plain "Lib" (by simp))]
    simp [below]
  | modules =>
    have two : Path.ofText "src/lib.rs" = ⟨["src", "lib.rs"]⟩ := by decide
    unfold path directory Path.child
    rw [two, Path.components_join_names _ (by simp) (by decide)]
    have inside := child target "Lib" (plain "Lib" (by simp))
    unfold Path.child at inside
    rw [inside]
    simp [below]
  | manifest =>
    unfold path directory
    rw [child _ _ (plain "Cargo.toml" (by simp)), child _ _ (plain "Lib" (by simp))]
    simp [below]
  | names =>
    unfold path namesFile
    rw [child _ _ (plain "names.json" (by simp))]
    simp [below]

theorem File.goal_path (file : File) :
    (file.path target).goal current = target.goal current ++ file.below target :=
  Path.goal_of_names current file.components_path

/-- Every generated file has a place of its own. -/
theorem File.below_inj {file other : File} (same : file.below target = other.below target) :
    file = other := by
  have function : ∀ {n m}, functionName target n ++ ".rs" = functionName target m ++ ".rs" → n = m := by
    intro n m files
    have letters := congrArg String.toList files
    rw [String.toList_append, String.toList_append] at letters
    exact functionName_inj (String.toList_injective (List.append_cancel_right letters))
  have apart : ∀ n, functionName target n ++ ".rs" ≠ "lib.rs" := by
    intro n files
    obtain ⟨front, last, digits, isDigit⟩ := toString_last n
    have lib : "lib.rs" = "lib" ++ ".rs" := by decide
    rw [lib] at files
    have letters := congrArg String.toList files
    rw [String.toList_append, String.toList_append, List.append_cancel_right_eq,
      toList_functionName, digits, ← List.append_assoc] at letters
    have lasts := congrArg List.getLast? letters
    rw [List.getLast?_concat] at lasts
    have isB : last = 'b' := Option.some.inj (lasts.trans (by decide))
    rw [isB] at isDigit
    exact absurd isDigit (by decide)
  unfold below at same
  cases file <;> cases other <;>
    simp only [List.cons.injEq, String.reduceEq, reduceCtorEq, and_false, false_and, and_true,
      true_and] at same
  case code.code => rw [function same]
  case source.source => rw [function same]
  case source.modules => exact absurd same (apart _)
  case modules.source => exact absurd same.symm (apart _)
  all_goals rfl

theorem File.goal_inj {file other : File}
    (same : (file.path target).goal current = (other.path target).goal current) : file = other := by
  rw [File.goal_path, File.goal_path] at same
  exact File.below_inj (List.append_cancel_left same)

/-- Where generated files are. -/
def Generated (target : Path) (current location : Location) : Prop :=
  ∃ file : File, location = (file.path target).goal current

/-! ## Writing a generated file -/

variable {before after start present : Workspace} {file : File} {text : String} {count : Nat}

/-- What writing a generated file leaves: its text, the other generated files, and all that is no
generated file. -/
structure Wrote (target : Path) (file : File) (text : String) (before after : Workspace) :
    Prop where
  foreign : after.foreign = before.foreign
  confined : Confined (Generated target before.disk.current) before.disk after.disk
  holds : after.disk.readText (file.path target) = .ok text
  kept : ∀ other content, other ≠ file → before.disk.readText (other.path target) = .ok content →
    after.disk.readText (other.path target) = .ok content

theorem wrote_writeChanged (sound : before.disk.Sound)
    (ran : (writeChanged (file.path target) text).Yields before count after) :
    Wrote target file text before after := by
  unfold writeChanged writeIfChanged at ran
  obtain ⟨disk, action, rfl⟩ := Step.yields_onDisk.1 ran
  cases same : holdsText before.disk (file.path target) text with
  | true =>
    rw [if_pos same] at action
    obtain ⟨_, rfl⟩ := Prod.mk.inj action
    refine ⟨rfl, .refl sound, ?_, fun _ _ _ reads => reads⟩
    unfold holdsText at same
    split at same
    · next found reads => rw [reads, eq_of_beq same]
    · exact absurd same (by simp)
  | false =>
    rw [if_neg (by simp [same])] at action
    cases written : Document.writeBelow before.disk (file.path target) text with
    | mk outcome next =>
      rw [written] at action
      cases outcome with
      | error failure => exact absurd (Prod.mk.inj action).1 (by simp)
      | ok _ =>
        obtain ⟨_, rfl⟩ := Prod.mk.inj action
        obtain ⟨ends, passable, touches, stands⟩ := Document.writeBelow_ok sound written
        refine ⟨rfl, Confined.of_touches touches ?_ (by simp), ?_, fun other content apart reads => ?_⟩
        · intro location member
          exact ⟨file, List.mem_singleton.1 member⟩
        · rw [Disk.readText_eq_ok, Disk.entry_of_name ends passable, touches.current, stands]
        · rw [Disk.readText_eq_ok] at reads ⊢
          apply touches.entry?_stays _ (by simp) reads
          exact fun wrong => apart (File.goal_inj (List.mem_singleton.1 wrong))

/-! ## Collecting inserts -/

open Document (Insert)

variable {draft next : Draft} {insert : Insert} {inserts found : List Insert} {records : List Record}

/-- The functions of inserts by their locators, in the order of the inserts. -/
def table (target : Path) (inserts : List Insert) : List (String × String) :=
  inserts.mapIdx fun number insert => (insert.locator, functionName target number)

/-- What collecting has come to for the inserts so far: the numbered functions, the table where the
last of a locator counts, the code of every insert in its files, and nothing else changed. -/
structure Drafted (target : Path) (start present : Workspace) (draft : Draft)
    (inserts : List Insert) : Prop where
  foreign : present.foreign = start.foreign
  confined : Confined (Generated target start.disk.current) start.disk present.disk
  functions : draft.functions = (List.range inserts.length).map (functionName target)
  names : draft.names = Ordered.ofList Prod.fst (table target inserts)
  codes : ∀ number insert, inserts[number]? = some insert →
    present.disk.readText ((File.code number).path target) = .ok insert.code ∧
      present.disk.readText ((File.source number).path target) = .ok insert.code

theorem Drafted.initial (sound : start.disk.Sound) : Drafted target start start .empty [] :=
  ⟨rfl, .refl sound, rfl, rfl, fun _ _ missing => absurd missing (by simp)⟩

/-- One more insert takes the next number. -/
theorem Drafted.add (drafted : Drafted target start before draft inserts)
    (ran : (addInsert target draft insert).Yields before next after) :
    Drafted target start after next (inserts ++ [insert]) := by
  have number : draft.functions.length = inserts.length := by
    rw [drafted.functions, List.length_map, List.length_range]
  unfold addInsert at ran
  rw [number] at ran
  obtain ⟨first, between, wroteCode, ran⟩ := Step.yields_bind.1 ran
  obtain ⟨second, last, wroteSource, ran⟩ := Step.yields_bind.1 ran
  obtain ⟨rfl, rfl⟩ := Step.yields_pure.1 ran
  have code : Wrote target (.code inserts.length) insert.code before between :=
    wrote_writeChanged drafted.confined.sound wroteCode
  have source : Wrote target (.source inserts.length) insert.code between last :=
    wrote_writeChanged code.confined.sound wroteSource
  have confined : Confined (Generated target start.disk.current) before.disk last.disk := by
    have first := code.confined
    have second := source.confined
    rw [code.confined.current] at second
    rw [← drafted.confined.current]
    exact first.trans second
  refine ⟨source.foreign.trans (code.foreign.trans drafted.foreign), drafted.confined.trans confined,
    ?_, ?_, fun other added reads => ?_⟩
  · rw [drafted.functions, List.length_append, List.length_singleton, List.range_succ, List.map_append]
    rfl
  · have step : table target (inserts ++ [insert]) =
        table target inserts ++ [(insert.locator, functionName target inserts.length)] := by
      simp [table, List.mapIdx_append]
    rw [step, drafted.names]
    simp [Ordered.ofList]
  · by_cases earlier : other < inserts.length
    · rw [List.getElem?_append_left earlier] at reads
      obtain ⟨isCode, isSource⟩ := drafted.codes other added reads
      have apart : ∀ kind : Nat → File, (∀ n m, kind n = kind m → n = m) →
          kind other ≠ kind inserts.length := fun kind injective same => by
        have := injective _ _ same
        omega
      refine ⟨source.kept _ _ (by simp) (code.kept _ _ ?_ isCode),
        source.kept _ _ ?_ (code.kept _ _ (by simp) isSource)⟩
      · exact apart .code fun _ _ => File.code.inj
      · exact apart .source fun _ _ => File.source.inj
    · rw [List.getElem?_append_right (by omega)] at reads
      have isLast : other = inserts.length := by
        have bounded := (List.getElem?_eq_some_iff.1 reads).1
        simp only [List.length_singleton] at bounded
        omega
      subst isLast
      rw [Nat.sub_self, List.getElem?_cons_zero] at reads
      rw [← Option.some.inj reads]
      exact ⟨source.kept _ _ (by simp) code.holds, source.holds⟩

theorem Drafted.addAll (drafted : Drafted target start before draft inserts)
    (ran : (addInserts target draft found).Yields before next after) :
    Drafted target start after next (inserts ++ found) := by
  induction found generalizing draft before inserts with
  | nil =>
    obtain ⟨rfl, rfl⟩ := Step.yields_pure.1 ran
    rw [List.append_nil]
    exact drafted
  | cons insert rest inductionHypothesis =>
    obtain ⟨middle, between, added, ran⟩ := Step.yields_bind.1 ran
    have done := inductionHypothesis (drafted.add added) ran
    rwa [List.append_assoc] at done

/-- The inserts of a record: those of its optimized document, as it is read when only generated
files have changed since the start. -/
def InsertsOf (target : Path) (start : Disk) (record : Record) (part : List Insert) : Prop :=
  match record.optimized with
  | none => part = []
  | some path => ∃ disk document, Confined (Generated target start.current) start disk ∧
      Document.load disk path = .ok document ∧ document.inserts = .ok part

/-- A document whose way and place no generated file is at is read as it was at the start. -/
theorem load_apart {area : Location → Prop} {disk next : Disk} {path : Path} {document : Document}
    (confined : Confined area disk next) (goal : ¬area (path.goal disk.current))
    (way : ∀ passed ∈ path.left disk.current, ¬area passed)
    (reads : Document.load disk path = .ok document) : Document.load next path = .ok document := by
  obtain ⟨text, found, _⟩ := Document.load_eq_ok.1 reads
  obtain ⟨_, passable, stands⟩ := Disk.entry_eq_some found
  have stays : ∀ {location entry}, ¬area location → disk.entryAt? location = some entry →
      next.entryAt? location = some entry := by
    intro location entry free here
    rcases confined.outside location free with same | ⟨nothing, _⟩
    · rw [same, here]
    · rw [here] at nothing
      exact absurd nothing (by simp)
  have passableNext : next.Passable path := by
    intro passed member
    rw [confined.current] at member
    exact Disk.directoryAt_iff.2 (stays (way passed member)
      (Disk.directoryAt_iff.1 (passable passed member)))
  have same : next.entry? path = disk.entry? path := by
    apply Disk.entry_congr confined.current ⟨fun _ => passable, fun _ => passableNext⟩
    rw [stands, stays goal stands]
  rw [Document.load_congr same]
  exact reads

/-- The inserts of records, one record after the other. -/
def Gathered (target : Path) (start : Disk) (records : List Record) (inserts : List Insert) : Prop :=
  ∃ parts, List.Forall₂ (InsertsOf target start) records parts ∧ inserts = parts.flatten

theorem Drafted.collect (drafted : Drafted target start before draft inserts)
    (ran : (Library.collect target draft records).Yields before next after) :
    ∃ found, Gathered target start.disk records found ∧
      Drafted target start after next (inserts ++ found) := by
  induction records generalizing draft before inserts with
  | nil =>
    obtain ⟨rfl, rfl⟩ := Step.yields_pure.1 ran
    refine ⟨[], ⟨[], .nil, rfl⟩, ?_⟩
    rw [List.append_nil]
    exact drafted
  | cons record rest inductionHypothesis =>
    unfold Library.collect at ran
    cases optimized : record.optimized with
    | none =>
      rw [optimized] at ran
      obtain ⟨found, ⟨parts, each, flat⟩, done⟩ := inductionHypothesis drafted ran
      refine ⟨found, ⟨[] :: parts, .cons ?_ each, by simpa using flat⟩, done⟩
      unfold InsertsOf
      rw [optimized]
    | some path =>
      rw [optimized] at ran
      obtain ⟨document, between, loaded, ran⟩ := Step.yields_bind.1 ran
      obtain ⟨reads, rfl⟩ := Step.yields_load.1 loaded
      obtain ⟨part, between, outcome, ran⟩ := Step.yields_bind.1 ran
      obtain ⟨isPart, rfl⟩ := Step.yields_ofOutcome.1 outcome
      obtain ⟨middle, between, added, ran⟩ := Step.yields_bind.1 ran
      obtain ⟨found, ⟨parts, each, flat⟩, done⟩ := inductionHypothesis (drafted.addAll added) ran
      rw [List.append_assoc] at done
      refine ⟨part ++ found, ⟨part :: parts, .cons ?_ each, by simp [flat]⟩, done⟩
      unfold InsertsOf
      rw [optimized]
      exact ⟨_, document, drafted.confined, reads, isPart⟩

/-- What is written for all inserts: the source that declares them, the manifest and the table. -/
theorem wrote_common (sound : before.disk.Sound)
    (ran : (writeCommon target draft).Yields before count after) :
    ∃ first second, Wrote target .modules (modulesText draft.functions) before first ∧
      Wrote target .manifest draft.manifest.render first second ∧
      Wrote target .names (namesText draft.names) second after := by
  unfold writeCommon at ran
  obtain ⟨_, first, wroteModules, ran⟩ := Step.yields_bind.1 ran
  obtain ⟨_, second, wroteManifest, ran⟩ := Step.yields_bind.1 ran
  obtain ⟨_, last, wroteNames, ran⟩ := Step.yields_bind.1 ran
  obtain ⟨_, rfl⟩ := Step.yields_pure.1 ran
  have modules : Wrote target .modules _ before first := wrote_writeChanged sound wroteModules
  have manifest : Wrote target .manifest _ first second :=
    wrote_writeChanged modules.confined.sound wroteManifest
  exact ⟨first, second, modules, manifest, wrote_writeChanged manifest.confined.sound wroteNames⟩

/-- What is written for all inserts keeps the code of each, and holds the table. -/
theorem Drafted.common (drafted : Drafted target start before draft inserts)
    (ran : (writeCommon target draft).Yields before count after) :
    Drafted target start after draft inserts ∧
      after.disk.readText (namesFile target) = .ok (namesText draft.names) := by
  obtain ⟨first, second, modules, manifest, names⟩ := wrote_common drafted.confined.sound ran
  have confined : Confined (Generated target start.disk.current) before.disk after.disk := by
    have later := manifest.confined
    rw [modules.confined.current] at later
    have latest := names.confined
    rw [manifest.confined.current, modules.confined.current] at latest
    rw [← drafted.confined.current]
    exact (modules.confined.trans later).trans latest
  refine ⟨⟨names.foreign.trans (manifest.foreign.trans (modules.foreign.trans drafted.foreign)),
    drafted.confined.trans confined, drafted.functions, drafted.names, fun number insert reads => ?_⟩,
    names.holds⟩
  obtain ⟨isCode, isSource⟩ := drafted.codes number insert reads
  have kept : ∀ (file : File) content, file ≠ .modules → file ≠ .manifest → file ≠ .names →
      before.disk.readText (file.path target) = .ok content →
      after.disk.readText (file.path target) = .ok content :=
    fun file content noModules noManifest noNames reads =>
      names.kept _ _ noNames (manifest.kept _ _ noManifest (modules.kept _ _ noModules reads))
  exact ⟨kept _ _ (by simp) (by simp) (by simp) isCode, kept _ _ (by simp) (by simp) (by simp) isSource⟩

section Binarize

variable {settings : Settings} {toolbox : Command.Toolbox} {wanted cancelled : Bool}
  {report : LibraryReport}

/-- Without inserts nothing follows their collection; else what is common to them is written. -/
theorem yields_binarize
    (ran : (binarize settings toolbox wanted cancelled).Yields before report after) :
    ∃ draft present,
      (Library.collect settings.target .empty before.foreign.records).Yields before draft present ∧
      report.functions = draft.functions ∧
      (draft.functions = [] ∧ after = present ∨
        draft.functions ≠ [] ∧ ∃ count, report.written = draft.written + count ∧
          (writeCommon settings.target draft).Yields present count after) := by
  unfold binarize at ran
  obtain ⟨records, between, looked, ran⟩ := Step.yields_bind.1 ran
  obtain ⟨rfl, rfl⟩ := Step.yields_look.1 looked
  obtain ⟨draft, present, collected, ran⟩ := Step.yields_bind.1 ran
  refine ⟨draft, present, collected, ?_⟩
  rcases Step.yields_ite.1 ran with ⟨none, ran⟩ | ⟨some_, ran⟩
  · obtain ⟨rfl, rfl⟩ := Step.yields_pure.1 ran
    have isNil := List.isEmpty_iff.1 none
    exact ⟨isNil.symm, Or.inl ⟨isNil, rfl⟩⟩
  · have notNil : draft.functions ≠ [] := fun isNil => some_ (List.isEmpty_iff.2 isNil)
    obtain ⟨common, last, wrote, ran⟩ := Step.yields_bind.1 ran
    rcases Step.yields_ite.1 ran with ⟨_, ran⟩ | ⟨_, ran⟩
    · obtain ⟨_, final, built, ran⟩ := Step.yields_bind.1 ran
      obtain ⟨rfl, rfl⟩ := Step.yields_pure.1 ran
      unfold build at built
      obtain ⟨disk, isDisk, rfl⟩ := Step.yields_onDisk.1 built
      obtain ⟨_, rfl⟩ := Prod.mk.inj isDisk
      exact ⟨rfl, Or.inr ⟨notNil, common, rfl, wrote⟩⟩
    · obtain ⟨rfl, rfl⟩ := Step.yields_pure.1 ran
      exact ⟨rfl, Or.inr ⟨notNil, common, rfl, wrote⟩⟩

/-- What is left when inserts were collected: the code of each in its files, and the table. -/
theorem drafted_binarize (sound : before.disk.Sound)
    (ran : (binarize settings toolbox wanted cancelled).Yields before report after)
    (some_ : report.functions ≠ []) :
    ∃ draft inserts, Gathered settings.target before.disk before.foreign.records inserts ∧
      Drafted settings.target before after draft inserts ∧ report.functions = draft.functions ∧
      after.disk.readText (namesFile settings.target) = .ok (namesText draft.names) := by
  obtain ⟨draft, present, collected, isReport, ⟨none, _⟩ | ⟨_, count, _, wrote⟩⟩ := yields_binarize ran
  · exact absurd (isReport.trans none) some_
  · obtain ⟨inserts, gathered, drafted⟩ := (Drafted.initial sound).collect collected
    rw [List.nil_append] at drafted
    obtain ⟨done, names⟩ := drafted.common wrote
    exact ⟨draft, inserts, gathered, done, isReport, names⟩

end Binarize

end Native.Library

end EoAssembly
