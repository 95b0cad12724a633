import Stencil.FileSystem.Access

/-!
Walks through a directory and all that stands below it. The entries of a directory come in
increasing order of their names, and what a directory holds comes right after it.

A walk may follow the links that it meets. Then a link to a directory counts as one, except where
it leads back to a directory that the walk is in.
-/

namespace Stencil

inductive Kind
  | directory
  | file
  | other
  deriving DecidableEq, Repr

def Entry.kind : Entry → Kind
  | .directory => .directory
  | .file _ => .file
  | .link _ | .pipe | .socket => .other

/-- An entry that a walk meets: its place below the root, the path on which it was reached, and
what it counts as. -/
structure Visit where
  below : Location
  path : Path
  kind : Kind
  deriving DecidableEq, Repr

inductive Step
  | visit (v : Visit)
  | failed (path : Path) (cause : SystemError)
  deriving DecidableEq, Repr

/-- More directories than can stand one below the other on a path. -/
def maxDepth : Nat := maxPathSize + 1

namespace FileSystem

/-- What the entry `n` of the directory at `d` counts as, when `path` leads to it from within the
directories `inside`. -/
def meet (fs : FileSystem) (follow : Bool) (inside : List Location) (d : Location) (n : Name)
    (path : Path) : Except SystemError Kind :=
  match fs.get? (n :: d) with
  | some (.link _) =>
    if follow then do
      let l ← fs.locate path
      let e := fs.entryAt l
      if e.isDirectory && inside.contains l then throw .linkToAncestor
      return e.kind
    else return .other
  | some e => return e.kind
  | none => return .other

/-- The steps of a walk through the directory that `dir` names. `inside` are the directories above
it, and `below` is its place below the root. A path cannot be as deep as `maxDepth`. -/
def stepsIn (fs : FileSystem) (follow : Bool) :
    Nat → List Location → Path → Location → List Step
  | 0, _, dir, _ => [.failed dir .nameTooLong]
  | depth + 1, inside, dir, below =>
    match fs.list dir with
    | .error e => [.failed dir e]
    | .ok (d, names) => names.flatMap fun n =>
      let path := dir.join n
      match fs.meet follow (d :: inside) d n path with
      | .error e => [.failed path e]
      | .ok .directory =>
        .visit ⟨n :: below, path, .directory⟩ ::
          fs.stepsIn follow depth (d :: inside) path (n :: below)
      | .ok kind => [.visit ⟨n :: below, path, kind⟩]

/-- The steps of a walk through `root`. A root that is no directory has nothing below it. -/
def walk (fs : FileSystem) (follow : Bool) (root : Path) : List Step :=
  match fs.status root with
  | .error e => [.failed root e]
  | .ok .directory => fs.stepsIn follow maxDepth [] root []
  | .ok _ => []

/-- The locations of all entries but the root, each once. -/
def locations (fs : FileSystem) : List Location := (fs.entries.map (·.1)).eraseDups

/-- All entries below a location, each with its place below it. -/
def below (fs : FileSystem) (l : Location) : List (Location × Entry) :=
  fs.locations.filterMap fun k =>
    if l.isSuffixOf k && k ≠ l then
      (fs.get? k).map fun e => (k.take (k.length - l.length), e)
    else none

end FileSystem

end Stencil
