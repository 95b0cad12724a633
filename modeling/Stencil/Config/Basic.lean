import Stencil.Scaffold

/-!
What a user can set for all projects, and what holds where nothing is set.
-/

namespace Stencil

/-- The values that stand for blank answers. -/
structure Defaults where
  version : String := "0.0.1"
  author : String := ""
  email : String := ""
  deriving DecidableEq, Repr, Inhabited

structure Config where
  /-- Takes the place of the shipped template. -/
  template : Option Path := none
  unresolved : Policy := .keep
  defaults : Defaults := {}
  deriving DecidableEq, Repr, Inhabited

namespace Config

def options (config : Config) (shipped base : Path) : Options :=
  ⟨config.template.getD shipped, base, config.unresolved⟩

end Config

/-- Where the user's own files are. -/
structure Home where
  directory : Option Path
  /-- The directory for configuration, if the user has chosen one. -/
  configDirectory : Option String := none

namespace Home

/-- The configuration directory: the chosen one if its path is absolute. -/
def configRoot? (home : Home) : Option Path :=
  let usual := home.directory.map (·.join ".config")
  match home.configDirectory.map Path.ofString with
  | some p => if p.isAbsolute then some p else usual
  | none => usual

def configFile? (home : Home) : Option Path :=
  home.configRoot?.map fun root => (root.join "sipa").join "config.toml"

end Home

end Stencil
