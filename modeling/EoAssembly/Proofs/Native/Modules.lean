import EoAssembly.Proofs.Native.Rebuilt
import EoAssembly.Proofs.Text

/-!
Contract: when the modules that the generated library declares have names that Rust takes.

The name of a module is made of lowercase letters and digits, whatever the target is.  It
starts with what the first character of the target becomes, so it starts with a letter
exactly when the target is not empty and doesn't start with a digit.

Owns `Library.IsModuleName`, `Library.moduleLine`, and this law.
-/

namespace EoAssembly

namespace ObjectName

/-- A lowercase letter of ASCII. -/
def IsLower (c : Char) : Prop := 'a' ≤ c ∧ c ≤ 'z'

/-- A digit of ASCII. -/
def IsDigit (c : Char) : Prop := '0' ≤ c ∧ c ≤ '9'

instance (c : Char) : Decidable (IsLower c) := inferInstanceAs (Decidable (_ ∧ _))

instance (c : Char) : Decidable (IsDigit c) := inferInstanceAs (Decidable (_ ∧ _))

variable {c d : Char}

theorem not_isDigit_of_isLower (lower : IsLower c) : ¬IsDigit c :=
  fun digit => absurd (Nat.le_trans lower.1 digit.2) (by decide)

/-- A capital letter becomes its lowercase one. -/
theorem isLower_shifted (upper : 'A' ≤ c ∧ c ≤ 'Z') : IsLower (Char.ofNat (c.toNat + 32)) := by
  have shifted : ∀ k < 26, IsLower (Char.ofNat (k + 97)) := by decide
  have low : 65 ≤ c.toNat := upper.1
  have high : c.toNat ≤ 90 := upper.2
  rw [show c.toNat + 32 = c.toNat - 65 + 97 by omega]
  exact shifted (c.toNat - 65) (by omega)

/-- What a character becomes starts with a letter, unless it is a digit, which stays. -/
theorem nativeLetters_eq (c : Char) :
    ∃ d rest, nativeLetters c = d :: rest ∧ (IsLower d ∨ IsDigit d) ∧
      (∀ other ∈ rest, IsLower other) ∧ (IsLower d ↔ ¬IsDigit c) := by
  have notDigit : ∀ d, IsLower d → ¬IsDigit c → (IsLower d ∨ IsDigit d) ∧ (IsLower d ↔ ¬IsDigit c) :=
    fun d lower none => ⟨Or.inl lower, fun _ => none, fun _ => lower⟩
  unfold nativeLetters
  split
  · next kept =>
    refine ⟨c, [], rfl, kept, by simp, fun lower => not_isDigit_of_isLower lower, fun none => ?_⟩
    exact kept.resolve_right none
  · next other =>
    have none : ¬IsDigit c := fun digit => other (Or.inr digit)
    split
    · next upper =>
      have ⟨either, iff_⟩ := notDigit _ (isLower_shifted upper) none
      exact ⟨_, [], rfl, either, by simp, iff_⟩
    · split
      · have ⟨either, iff_⟩ := notDigit 'k' (by decide) none
        exact ⟨_, [], rfl, either, by simp, iff_⟩
      · split
        · have ⟨either, iff_⟩ := notDigit 'i' (by decide) none
          have last : IsLower 'x' := by decide
          exact ⟨_, ['x'], rfl, either, by simpa using last, iff_⟩
        · have ⟨either, iff_⟩ := notDigit 'x' (by decide) none
          exact ⟨_, [], rfl, either, by simp, iff_⟩

theorem plain_nativeStem {target : Path} (member : c ∈ (nativeStem target).toList) :
    IsLower c ∨ IsDigit c := by
  unfold nativeStem at member
  rw [String.toList_ofList] at member
  obtain ⟨letter, _, among⟩ := List.mem_flatMap.1 member
  obtain ⟨d, rest, same, first, later, _⟩ := nativeLetters_eq letter
  rw [same] at among
  rcases List.mem_cons.1 among with rfl | inRest
  · exact first
  · exact Or.inl (later c inRest)

end ObjectName

namespace Native.Library

open ObjectName (IsLower IsDigit)

variable {target : Path} {n : Nat} {name : String} {functions : List String}

/-- A name of lowercase letters and digits that starts with a letter. -/
structure IsModuleName (name : String) : Prop where
  lead : ∃ c rest, name.toList = c :: rest ∧ IsLower c
  plain : ∀ c ∈ name.toList, IsLower c ∨ IsDigit c

/-- The line that declares a module. -/
def moduleLine (name : String) : String := "pub mod " ++ name ++ ";"

theorem moduleLine_inj {other : String} (same : moduleLine name = moduleLine other) : name = other := by
  unfold moduleLine at same
  have letters := congrArg String.toList same
  simp only [String.toList_append, List.append_assoc, List.append_cancel_left_eq,
    List.append_cancel_right_eq] at letters
  exact String.toList_injective letters

theorem plain_functionName : ∀ c ∈ (functionName target n).toList, IsLower c ∨ IsDigit c := by
  intro c member
  rw [toList_functionName] at member
  rcases List.mem_append.1 member with stem | digit
  · exact ObjectName.plain_nativeStem stem
  · have isDigit := isDigit_toString digit
    simp only [Char.isDigit, Bool.and_eq_true, decide_eq_true_eq] at isDigit
    exact Or.inr isDigit

/-- A function is named like a module exactly when its target starts with no digit. -/
theorem isModuleName_functionName :
    IsModuleName (functionName target n) ↔ ∃ c rest, target.text.toList = c :: rest ∧ ¬IsDigit c := by
  have stem : (ObjectName.nativeStem target).toList =
      target.text.toList.flatMap ObjectName.nativeLetters := by
    unfold ObjectName.nativeStem
    rw [String.toList_ofList]
  constructor
  · intro isName
    obtain ⟨c, rest, letters, lower⟩ := isName.lead
    rw [toList_functionName, stem] at letters
    cases chars : target.text.toList with
    | nil =>
      -- an empty target leaves the number alone
      rw [chars, List.flatMap_nil, List.nil_append] at letters
      have isDigit : c.isDigit = true :=
        isDigit_toString (n := n) (by rw [letters]; exact List.mem_cons_self)
      simp only [Char.isDigit, Bool.and_eq_true, decide_eq_true_eq] at isDigit
      exact absurd isDigit (ObjectName.not_isDigit_of_isLower lower)
    | cons first others =>
      obtain ⟨d, more, same, _, _, isLower⟩ := ObjectName.nativeLetters_eq first
      rw [chars, List.flatMap_cons, same, List.cons_append, List.cons_append] at letters
      refine ⟨first, others, rfl, isLower.1 ?_⟩
      rw [(List.cons.inj letters).1]
      exact lower
  · rintro ⟨first, others, chars, none⟩
    obtain ⟨d, more, same, _, _, isLower⟩ := ObjectName.nativeLetters_eq first
    refine ⟨⟨d, more ++ others.flatMap ObjectName.nativeLetters ++ (toString n).toList, ?_,
      isLower.2 none⟩, plain_functionName⟩
    rw [toList_functionName, stem, chars, List.flatMap_cons, same, List.cons_append, List.cons_append]

/-- The source that declares the modules has one line for each. -/
theorem lines_modulesText (plain : ∀ name ∈ functions, ∀ c ∈ name.toList, IsLower c ∨ IsDigit c) :
    Text.lines (modulesText functions) = functions.map moduleLine := by
  induction functions with
  | nil => rfl
  | cons name rest inductionHypothesis =>
    have step : modulesText (name :: rest) = moduleLine name ++ "\n" ++ modulesText rest := by
      have line : s!"pub mod {name};\n" = moduleLine name ++ "\n" := by
        have ends : ";\n" = ";" ++ "\n" := by decide
        change "pub mod " ++ name ++ ";\n" = _
        rw [ends, ← String.append_assoc]
        rfl
      unfold modulesText
      rw [List.map_cons, String.join_cons, line]
    have single : ∀ c ∈ (moduleLine name).toList, c ≠ '\n' ∧ c ≠ '\r' := by
      intro c inside
      simp only [moduleLine, String.toList_append, List.mem_append] at inside
      have own : ∀ c ∈ "pub mod ".toList ++ ";".toList, c ≠ '\n' ∧ c ≠ '\r' := by simp
      rcases inside with (lead | here) | tail
      · exact own c (List.mem_append_left _ lead)
      · have letter := plain name List.mem_cons_self c here
        constructor
        · rintro rfl
          exact absurd letter (by decide)
        · rintro rfl
          exact absurd letter (by decide)
      · exact own c (List.mem_append_right _ tail)
    rw [step, Text.lines_cons single, List.map_cons,
      inductionHypothesis fun other among => plain other (List.mem_cons_of_mem name among)]

section Binarize

variable {settings : Settings} {toolbox : Command.Toolbox} {wanted cancelled : Bool}
  {report : LibraryReport} {before after : Workspace}

/-- The source of a library with inserts declares the function of each, one on a line, under a name
of lowercase letters and digits.  The names start with letters exactly when the target does not
start with a digit, and is not empty. -/
theorem modules_named_iff (sound : before.disk.Sound)
    (ran : (binarize settings toolbox wanted cancelled).Yields before report after)
    (some_ : report.functions ≠ []) :
    ∃ text, after.disk.readText (File.modules.path settings.target) = .ok text ∧
      Text.lines text = report.functions.map moduleLine ∧
      (∀ name ∈ report.functions, ∀ c ∈ name.toList, IsLower c ∨ IsDigit c) ∧
      ((∀ line ∈ Text.lines text, ∃ name, line = moduleLine name ∧ IsModuleName name) ↔
        ∃ c rest, settings.target.text.toList = c :: rest ∧ ¬IsDigit c) := by
  obtain ⟨_, inserts, _, isReport, _, modules⟩ := written_binarize sound ran some_
  have plain : ∀ name ∈ report.functions, ∀ c ∈ name.toList, IsLower c ∨ IsDigit c := by
    intro name member
    rw [isReport] at member
    obtain ⟨number, _, rfl⟩ := List.mem_map.1 member
    exact plain_functionName
  have lines := lines_modulesText plain
  refine ⟨_, modules, lines, plain, ?_⟩
  rw [lines]
  constructor
  · intro named
    obtain ⟨first, member⟩ := List.exists_mem_of_ne_nil _ some_
    obtain ⟨name, same, isName⟩ := named _ (List.mem_map_of_mem member)
    rw [← moduleLine_inj same] at isName
    rw [isReport] at member
    obtain ⟨number, _, rfl⟩ := List.mem_map.1 member
    exact isModuleName_functionName.1 isName
  · rintro starts line member
    obtain ⟨name, among, rfl⟩ := List.mem_map.1 member
    refine ⟨name, rfl, ?_⟩
    rw [isReport] at among
    obtain ⟨number, _, rfl⟩ := List.mem_map.1 among
    exact isModuleName_functionName.2 starts

end Binarize

/-! ## A target that starts with a digit -/

/-- Settings whose target starts with a digit. -/
def digitSettings : Settings := { target := .ofText "1t" }

/-- What collecting the inserts of a project into that target comes to. -/
def digitRun : Except Failure LibraryReport × Workspace :=
  (binarize digitSettings (fun _ => none) false false).perform keptStart

theorem digitRun_facts : digitRun.1 = .ok ⟨["1t0"], 5, false⟩ := by
  decide +kernel

theorem digitRun_yields : (binarize digitSettings (fun _ => none) false false).Yields keptStart
    ⟨["1t0"], 5, false⟩ digitRun.2 :=
  Step.yields_perform digitRun_facts

/-- The module of an insert has a proper name below the target `t`, and none below `1t`. -/
theorem sample_named : keptStart.disk.Sound ∧
    (binarize nativeSettings (fun _ => none) false false).Yields keptStart
      ⟨["t0"], 5, false⟩ (collected keptStart).2 ∧
    (binarize digitSettings (fun _ => none) false false).Yields keptStart
      ⟨["1t0"], 5, false⟩ digitRun.2 ∧
    (∃ text, (collected keptStart).2.disk.readText (File.modules.path nativeSettings.target) =
        .ok text ∧ ∀ line ∈ Text.lines text, ∃ name, line = moduleLine name ∧ IsModuleName name) ∧
    ∃ text, digitRun.2.disk.readText (File.modules.path digitSettings.target) = .ok text ∧
      ¬∀ line ∈ Text.lines text, ∃ name, line = moduleLine name ∧ IsModuleName name := by
  have sound : keptStart.disk.Sound := Disk.sound_of_entries (by decide) (by decide)
  refine ⟨sound, keptRun_yields, digitRun_yields, ?_, ?_⟩
  · obtain ⟨text, reads, _, _, named⟩ := modules_named_iff sound keptRun_yields (by simp)
    exact ⟨text, reads, named.2 ⟨'t', [], by decide, by decide⟩⟩
  · obtain ⟨text, reads, _, _, named⟩ := modules_named_iff sound digitRun_yields (by simp)
    refine ⟨text, reads, fun proper => ?_⟩
    obtain ⟨c, rest, chars, none⟩ := named.1 proper
    have start : digitSettings.target.text.toList = ['1', 't'] := by decide
    rw [start] at chars
    exact none ((List.cons.inj chars).1 ▸ by decide)

/-- Not every module has a proper name: below a target that starts with a digit none has. -/
theorem module_misnamed :
    ¬∀ (settings : Settings) (toolbox : Command.Toolbox) (wanted cancelled : Bool)
      (report : LibraryReport) (before after : Workspace), before.disk.Sound →
      (binarize settings toolbox wanted cancelled).Yields before report after →
      report.functions ≠ [] →
      ∃ text, after.disk.readText (File.modules.path settings.target) = .ok text ∧
        ∀ line ∈ Text.lines text, ∃ name, line = moduleLine name ∧ IsModuleName name := by
  intro proper
  obtain ⟨text, reads, named⟩ := proper _ _ _ _ _ _ _
    (Disk.sound_of_entries (by decide) (by decide)) digitRun_yields (by simp)
  have written : digitRun.2.disk.readText (File.modules.path digitSettings.target) =
      .ok "pub mod 1t0;\n" := by
    decide +kernel
  rw [written] at reads
  have lines : Text.lines text = [moduleLine "1t0"] := by
    rw [← Except.ok.inj reads]
    decide +kernel
  obtain ⟨name, same, isName⟩ := named (moduleLine "1t0") (by simp [lines])
  obtain ⟨c, rest, letters, lower⟩ := isName.lead
  rw [← moduleLine_inj same] at letters
  have digit : c = '1' := (List.cons.inj letters).1.symm
  rw [digit] at lower
  exact absurd lower (by decide)

end Native.Library

end EoAssembly
