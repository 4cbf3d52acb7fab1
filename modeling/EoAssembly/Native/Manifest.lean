import EoAssembly.Native.Output
import EoAssembly.Native.Quoted
import EoAssembly.Ordered

/-!
Contract: the manifest of the generated native library.

A manifest starts with the baseline crates; a crate that is listed keeps its
version, whatever is added later.

Owns `Manifest`, its additions and its written form, with the tables of the
package, the library and the dependencies in this order.
-/

namespace EoAssembly.Native

/-- The manifest of a library crate. -/
structure Manifest where
  name : String
  dependencies : List (String × String)
  deriving DecidableEq

namespace Manifest

/-- The crates that every native library needs. -/
def baseline : List (String × String) := [("jni", "0.21.1")]

/-- A manifest with the baseline crates. -/
def ofName (name : String) : Manifest :=
  ⟨name, Ordered.ofList Prod.fst baseline⟩

/-- The version of a crate. -/
def version? (manifest : Manifest) (crate : String) : Option String :=
  manifest.dependencies.lookup crate

/-- A manifest with one more crate, unless it is listed. -/
def add (manifest : Manifest) (crate version : String) : Manifest :=
  if (manifest.version? crate).isSome then manifest
  else
    { manifest with
      dependencies := Ordered.put Prod.fst (crate, version) manifest.dependencies }

/-- A manifest with more crates, one after the other. -/
def addAll (manifest : Manifest) (crates : List (String × String)) : Manifest :=
  crates.foldl (fun found next => found.add next.1 next.2) manifest

/-- A line that gives a string to a key. -/
def stringLine (key value : String) : String :=
  Quoted.key key ++ " = " ++ Quoted.string value ++ "\n"

/-- The text of a manifest. -/
def render (manifest : Manifest) : String :=
  "[package]\n" ++ stringLine "name" manifest.name ++ stringLine "version" "0.1.0"
    ++ stringLine "edition" "2021" ++ "\n[lib]\ncrate-type = [" ++ Quoted.string "cdylib"
    ++ "]\n\n[dependencies]\n"
    ++ String.join (manifest.dependencies.map fun crate => stringLine crate.1 crate.2)

/-- Writes a manifest unless the file holds it already. -/
def save (manifest : Manifest) (disk : Disk) (path : Path) : Except Failure Bool × Disk :=
  writeIfChanged disk path manifest.render

end Manifest

end EoAssembly.Native
