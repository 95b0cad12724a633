import Stencil.Copying
import Stencil.Descriptor
import Stencil.Filling

/-!
Making a project: copy the template, write the descriptor, fill in the placeholders. The first
failure ends it, and what has been written stays.
-/

namespace Stencil

/-- Write the descriptor of the request into the directory `root`, over one that is there. -/
def writeDescriptor (request : Request) (root : Path) : Run Bindings := do
  let descriptor := Descriptor.ofRequest request
  let path := root.join Descriptor.fileName
  if (← get).files.hasTarget path then
    Run.emit (.replacingDescriptor path)
  Run.change (·.write path descriptor.render.toUTF8) (.system ("writing " ++ path.toString))
  return descriptor.bindings

/-- Where a project comes from and where it goes. -/
structure Options where
  template : Path
  /-- The directory in which the project directory is made. -/
  base : Path
  policy : Policy
  deriving DecidableEq, Repr

structure Project where
  destination : Path
  bindings : Bindings
  report : Report
  deriving DecidableEq, Repr

def scaffold (request : Request) (options : Options) : Run Project := do
  Run.emit (.copyingTemplate options.template)
  let destination ← materialize request options.template options.base
  Run.emit .writingDescriptor
  let bindings ← writeDescriptor request destination
  Run.emit (.substituting options.policy)
  let report ← fillDirectory destination bindings options.policy
  return ⟨destination, bindings, report⟩

end Stencil
