import EoAssembly.Build.Assembly
import EoAssembly.Proofs.Disk.Walk
import EoAssembly.Proofs.ObjectName

/-!
Contract: where the files of a build are.

Every file of a build is named behind its target or its protocols directory: a
path to it leaves the directories that these leave and no others.

Owns the components of the places of stages and of the catalog files.
-/

namespace EoAssembly.Build

open ObjectName (IsExtension Placeable place segments)
open Path (Component IsName)

theorem isExtension_source : IsExtension "eo" := by decide

theorem isExtension_log : IsExtension "log" := by decide

theorem isExtension_document : IsExtension documentExtension := by decide

theorem isName_pulled : IsName pulledDirectory := by decide

theorem isName_parsed : IsName parsedDirectory := by decide

theorem isName_optimized : IsName optimizedDirectory := by decide

theorem isName_steps : IsName stepsDirectory := by decide

theorem isName_foreign : IsName Catalogs.foreignFile := by decide

theorem isName_sibling : IsName (Catalogs.foreignFile ++ ".tmp") := by decide

section Stage

variable {directory extension name : String} (plainDirectory : IsName directory)
  (plain : IsExtension extension) (placeable : Placeable name) (target : Path)

include plainDirectory plain placeable

theorem components_stage : (place name (target.child directory) extension).components =
    target.components ++ (directory :: segments extension name).map Component.named := by
  rw [ObjectName.components_place plain.noSlash placeable, Path.components_child target plainDirectory,
    List.append_assoc]
  rfl

theorem endsInName_stage : (place name (target.child directory) extension).EndsInName :=
  ObjectName.endsInName_place plain.noSlash placeable (Path.endsInName_child target plainDirectory)

end Stage

/-- The catalog file of a build below its target. -/
def catalogPath (target : Path) : Path := target.child Catalogs.foreignFile

theorem components_catalogPath (target : Path) :
    (catalogPath target).components =
      target.components ++ [Catalogs.foreignFile].map Component.named :=
  Path.components_child target isName_foreign

theorem sibling_components {catalog : Catalog} {target : Path} (written : target.IsText)
    (here : catalog.path = catalogPath target) :
    catalog.sibling.components =
      target.components ++ [Catalogs.foreignFile ++ ".tmp"].map Component.named := by
  unfold Catalog.sibling
  rw [here]
  unfold catalogPath
  rw [Path.extended_child written isName_foreign isName_sibling]
  exact Path.components_child target isName_sibling

section Goals

variable {target : Path} (current : Location)

theorem goal_catalogPath :
    (catalogPath target).goal current = target.goal current ++ [Catalogs.foreignFile] :=
  Path.goal_of_names current (components_catalogPath target)

theorem left_catalogPath : (catalogPath target).left current = target.left current :=
  Path.left_of_names current (components_catalogPath target)

theorem mem_way_catalogPath {reached : Location} :
    reached ∈ (catalogPath target).way current ↔
      reached ∈ target.way current ∨
        reached = target.goal current ++ [Catalogs.foreignFile] := by
  rw [Path.mem_way_of_names current (components_catalogPath target)]
  refine or_congr_right ⟨?_, fun same => ⟨_, by simp, List.prefix_rfl, same⟩⟩
  rintro ⟨front, some_, first, same⟩
  rcases List.prefix_cons_iff.1 first with none | ⟨rest, whole, none⟩
  · exact absurd none some_
  · rw [same, whole, List.prefix_nil.1 none]

theorem goal_sibling {catalog : Catalog} (written : target.IsText)
    (here : catalog.path = catalogPath target) :
    catalog.sibling.goal current = target.goal current ++ [Catalogs.foreignFile ++ ".tmp"] :=
  Path.goal_of_names current (sibling_components written here)

end Goals

end EoAssembly.Build
