import Stencil.FileSystem.Access

/-!
The disk. The parts of it that a run can look at are read into a `FileSystem`, and what the run
adds to that file system is written back.
-/

namespace Stencil.Disk

/-- The location of an absolute path without links, `.` and `..`. -/
def locationOf (path : String) : Location := (Path.ofString path).components.reverse

def absolute (l : Location) : String := "/" ++ l.toPath.toString

/-- Let directories stand at a location and above it, where nothing is known to stand. -/
def withDirectories (fs : FileSystem) : Location → FileSystem
  | [] => fs
  | n :: d =>
    match fs.get? (n :: d) with
    | some _ => fs
    | none => (withDirectories fs d).set (n :: d) .directory

/-- Where a path leads on the disk, if anywhere. -/
def target? (path : String) : IO (Option Location) := do
  try
    return some (locationOf (← IO.FS.realPath path).toString)
  catch _ =>
    return none

/-- No entry of a disk has this name. -/
def nameOfNothing : Name := "\x00"

/-- The link at a location. One that leads nowhere leads to a name that is never there. -/
def readLink (l : Location) : IO Entry := do
  match ← target? (absolute l) with
  | some t => return .link (.ofString (absolute t))
  | none => return .link ⟨[nameOfNothing]⟩

/-- The entry at a location. What can be neither listed nor read counts as a socket. -/
def readEntry (l : Location) (type : IO.FS.FileType) (withBytes : Bool) : IO Entry := do
  match type with
  | .dir => return .directory
  | .file => return .file (← if withBytes then IO.FS.readBinFile (absolute l) else pure .empty)
  | .symlink => readLink l
  | .other => return .socket

/-- What the directory at `d` holds. -/
def readNames (fs : FileSystem) (d : Location) (withBytes : Bool) :
    IO (FileSystem × List Location) := do
  let mut fs := withDirectories fs d
  let mut found := []
  for entry in ← (← IO.FS.realPath (absolute d)).readDir do
    let l := entry.fileName :: d
    fs := fs.set l (← readEntry l (← entry.path.symlinkMetadata).type withBytes)
    found := l :: found
  return (fs, found)

/-- Read what stands at a location that is reached without a link. -/
def readAt (fs : FileSystem) (l : Location) : IO FileSystem := do
  let data ← (← IO.FS.realPath (absolute l)).metadata
  let fs := withDirectories fs l.tail
  if l.isEmpty then return fs
  return fs.set l (← readEntry l data.type true)

/-- Read the entries that a path leads through, and say where it leads. -/
def readPath (fs : FileSystem) (path : Path) : IO (FileSystem × Option Location) := do
  let mut fs := fs
  let mut here : Location := []
  let mut written := ""
  for c in path.components do
    written := written ++ "/" ++ c
    match ← target? written with
    | none => return (fs, none)
    | some l =>
      fs ← readAt fs l
      if c ≠ "." && c ≠ ".." && c :: here ≠ l then
        fs := fs.set (c :: here) (.link (.ofString (absolute l)))
      here := l
  return (fs, some here)

/-- Read what a path leads to, all that stands below it, and all that links there lead to. -/
def readTree (fs : FileSystem) (path : Path) : IO FileSystem := do
  let (fs, top) ← readPath fs path
  let mut fs := fs
  let mut waiting := top.toList
  let mut done : List Location := []
  while !waiting.isEmpty do
    let l := waiting.headD []
    waiting := waiting.tail
    if !done.contains l then
      done := l :: done
      match fs.get? l with
      | some .directory =>
        let (larger, found) ← readNames fs l true
        fs := larger
        waiting := found ++ waiting
      | some (.link target) =>
        let (larger, found) ← readPath fs target
        fs := larger
        waiting := found.toList ++ waiting
      | _ => pure ()
  return fs

/-- Write the entries that `after` has and `before` has not, the oldest first. -/
def writeBack (before after : FileSystem) : IO Unit := do
  let new := after.entries.take (after.entries.length - before.entries.length)
  for (l, e) in new.reverse do
    match e with
    | .directory => IO.FS.createDir (absolute l)
    | .file bytes => IO.FS.writeBinFile (absolute l) bytes
    | _ => pure ()

end Stencil.Disk
