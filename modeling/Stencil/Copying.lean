import Stencil.FileSystem.Walk
import Stencil.Request
import Stencil.World

/-!
Copying a template. Links are followed, so that the copy holds directories and files only. The
walk and the copying take turns: a directory is listed before its copy is made, which decides
what happens when the copy lies inside the template.
-/

namespace Stencil

/-- The failure of reading the template at `path`. -/
def readingEntry (destination path : Path) (e : SystemError) : Failure :=
  .copyFailed destination ("reading template entry " ++ path.toString) e

/-- Copy the entry `n` of the directory at `d` that `dir` names, and all below it. The walk is in
the directories `inside`, and `below` is the place of `dir` below the template. A path cannot be
as deep as `maxDepth`. -/
def copyEntry (destination : Path) :
    Nat → List Location → Location → Path → Location → Name → Run Unit
  | 0, _, _, dir, _, n => throw (readingEntry destination (dir.join n) .nameTooLong)
  | depth + 1, inside, d, dir, below, n => do
    let path := dir.join n
    let place : Location := n :: below
    let copy := destination.joinAll place
    let kind ← Run.look (·.meet true inside d n path) (readingEntry destination path)
    match kind with
    | .directory =>
      let listing := (← get).files.list path
      Run.change (·.createDirectories copy)
        (.copyFailed destination ("creating directory " ++ copy.toString))
      let (l, names) ← Run.look (fun _ => listing) (readingEntry destination path)
      names.forM (copyEntry destination depth (l :: inside) l path place)
    | _ =>
      Run.change (·.copyFile path copy)
        (.copyFailed destination ("copying " ++ (Location.toPath place).toString))
      Run.emit (.copied place.toPath)

/-- Copy all that stands in the template into the destination, which exists. -/
def copyTemplate (template destination : Path) : Run Unit := do
  let (l, names) ← Run.look (·.list template) (readingEntry destination template)
  names.forM (copyEntry destination maxDepth [l] l template [])

/-- Make the directory of a new project. -/
def createDestination (destination : Path) : Run Unit := do
  Run.change (·.createDirectory destination) fun e =>
    if e = .alreadyExists then .destinationExists destination
    else .system ("creating project directory " ++ destination.toString) e
  Run.emit (.createdDirectory destination)

/-- Copy the template into a new directory below `base`; return its path. -/
def materialize (request : Request) (template base : Path) : Run Path := do
  unless (← get).files.isDirectory template do throw (.templateMissing template)
  let destination := destinationOf base request.name
  createDestination destination
  copyTemplate template destination
  return destination

end Stencil
