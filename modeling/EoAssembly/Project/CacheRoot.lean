import EoAssembly.Path
import EoAssembly.Terminal

/-!
Contract: where checkouts are kept when nothing else is said.

Owns `cacheRoot`: the directory `eo-build` below the absolute path that
`XDG_CACHE_HOME` names, or else below `.cache` in the home directory.
-/

namespace EoAssembly.Project

/-- The home directory when the environment names none. -/
def defaultHome : String := "/root"

/-- The home directory. -/
def homeDirectory (environment : Environment) : Path :=
  match environment.lookup "HOME" with
  | some home => .ofText (if home = "" then defaultHome else home)
  | none => .ofText defaultHome

/-- The directory of caches. -/
def cacheDirectory (environment : Environment) : Path :=
  let wished := (environment.lookup "XDG_CACHE_HOME").map Path.ofText
  match wished.filter Path.isAbsolute with
  | some directory => directory
  | none => (homeDirectory environment).child ".cache"

/-- The directory of checkouts. -/
def cacheRoot (environment : Environment) : Path :=
  (cacheDirectory environment).child "eo-build"

end EoAssembly.Project
