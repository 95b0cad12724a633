import Stencil.DashCase
import Stencil.Path

/-!
What the user asks for: a project of some name, and where it will stand.
-/

namespace Stencil

structure Request where
  /-- As the user wrote it, without blanks around it. -/
  name : String
  version : String
  author : String
  email : String
  deriving DecidableEq, Repr

namespace Request

/-- The name of the project directory. -/
def directoryName (r : Request) : String := dashCase r.name

end Request

/-- Where a project of the given name stands below `base`. -/
def destinationOf (base : Path) (name : String) : Path := base.join (dashCase name)

end Stencil
