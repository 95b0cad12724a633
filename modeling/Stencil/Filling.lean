import Stencil.FileSystem.Walk
import Stencil.TextFile

/-!
Filling in the placeholders of all files below a directory. All files are read and filled in
before the first one is written, so that a file which cannot be filled in leaves all as they are.
Links are not followed, and a file without a change is not written.
-/

namespace Stencil

/-- A file, by its place below the root, and the text it is to hold. -/
structure FilledFile where
  file : Location
  text : String
  deriving DecidableEq, Repr

/-- What is to become of each file. -/
structure Plan where
  filled : List FilledFile
  unchanged : List Location
  /-- Files that are not text. -/
  skipped : List Location
  deriving DecidableEq, Repr

structure Report where
  filled : List Location
  unchanged : List Location
  skipped : List Location
  deriving DecidableEq, Repr

namespace Plan

def empty : Plan := ⟨[], [], []⟩

/-- Add a file with its text, if it is text, and what the text becomes. -/
def addFile (plan : Plan) (bindings : Bindings) (policy : Policy) (v : Visit) : Run Plan := do
  match ← readText v.path with
  | none =>
    Run.emit (.skippedFile v.below.toPath)
    return { plan with skipped := plan.skipped ++ [v.below] }
  | some text =>
    match substitute text bindings policy with
    | .error name => throw (.unresolved v.path name)
    | .ok result =>
      if result = text then
        return { plan with unchanged := plan.unchanged ++ [v.below] }
      else
        Run.emit (.filledFile v.below.toPath)
        return { plan with filled := plan.filled ++ [⟨v.below, result⟩] }

/-- Add what a step of the walk through `root` meets. Only files count. -/
def addStep (root : Path) (bindings : Bindings) (policy : Policy) (plan : Plan) (step : Step) :
    Run Plan := do
  match step with
  | .failed _ e => throw (.system ("walking " ++ root.toString) e)
  | .visit v => if v.kind = .file then plan.addFile bindings policy v else return plan

/-- Write the files one after the other. -/
def execute (root : Path) (plan : Plan) : Run Report := do
  plan.filled.forM fun r =>
    let path := root.joinAll r.file
    Run.change (·.write path r.text.toUTF8) (.system ("writing " ++ path.toString))
  return ⟨plan.filled.map (·.file), plan.unchanged, plan.skipped⟩

end Plan

/-- Read and fill in every file below `root`, and write nothing. -/
def planFilling (root : Path) (bindings : Bindings) (policy : Policy) : Run Plan := do
  let steps := (← get).files.walk false root
  steps.foldlM (Plan.addStep root bindings policy) .empty

/-- Fill in every file below `root`. -/
def fillDirectory (root : Path) (bindings : Bindings) (policy : Policy) : Run Report := do
  let plan ← planFilling root bindings policy
  plan.execute root

end Stencil
