import Stencil.FileSystem.Resolve

/-!
The calls on a file system. Those that look return what they find; those that change return the
file system after the change. Each can be refused.
-/

namespace Stencil

namespace FileSystem

/-- The entry at a location that a path led to; a removed working directory counts as one. -/
def entryAt (fs : FileSystem) (l : Location) : Entry := (fs.get? l).getD .directory

/-- What a path names, through all links. -/
def status (fs : FileSystem) (p : Path) : Except SystemError Entry :=
  (fs.locate p).map fs.entryAt

/-- What a path names; a link at its end is not followed. -/
def linkStatus (fs : FileSystem) (p : Path) : Except SystemError Entry :=
  (fs.locateLink p).map fs.entryAt

/-- The path leads to something. -/
def hasTarget (fs : FileSystem) (p : Path) : Bool := (fs.status p).isOk

/-- Something, if only a link that leads nowhere, stands at the path. -/
def occupied (fs : FileSystem) (p : Path) : Bool := (fs.linkStatus p).isOk

def isDirectory (fs : FileSystem) (p : Path) : Bool :=
  match fs.status p with
  | .ok e => e.isDirectory
  | .error _ => false

/-- The bytes of a file. -/
def read (fs : FileSystem) (p : Path) : Except SystemError ByteArray := do
  match ← fs.status p with
  | .file bytes => return bytes
  | .directory => throw .isADirectory
  | .pipe => throw .waiting
  | .socket => throw .notOpenable
  | .link _ => throw .tooManyLinks

/-- The location of a directory and the names it holds. -/
def list (fs : FileSystem) (p : Path) : Except SystemError (Location × List Name) := do
  let l ← fs.locate p
  if (fs.entryAt l).isDirectory then return (l, fs.names l) else throw .notADirectory

/-- Put a new entry into the directory at `d`. -/
def add (fs : FileSystem) (d : Location) (n : Name) (e : Entry) :
    Except SystemError FileSystem :=
  if fs.get? d = some .directory then .ok (fs.set (n :: d) e) else .error .notFound

/-- Make a new entry at a path where nothing stands. -/
def create (fs : FileSystem) (p : Path) (e : Entry) : Except SystemError FileSystem := do
  match ← fs.resolve .entry p p.components with
  | .found _ => throw .alreadyExists
  | .vacant d n => fs.add d n e

/-- Make the directory at a path whose parent exists. -/
def createDirectory (fs : FileSystem) (p : Path) : Except SystemError FileSystem :=
  fs.create p .directory

/-- Make the file hold `bytes`, and make it first if it is not there. -/
def write (fs : FileSystem) (p : Path) (bytes : ByteArray) : Except SystemError FileSystem := do
  match ← fs.resolve .file p p.steps with
  | .vacant d n => fs.add d n (.file bytes)
  | .found l =>
    match fs.entryAt l with
    | .file _ => return fs.set l (.file bytes)
    | .directory => throw .isADirectory
    | .pipe => throw .waiting
    | .socket => throw .notOpenable
    | .link _ => throw .tooManyLinks

/-- Copy a file. Only files can be copied. -/
def copyFile (fs : FileSystem) (source destination : Path) :
    Except SystemError FileSystem := do
  match ← fs.status source with
  | .file bytes => fs.write destination bytes
  | .directory => throw .invalidInput
  | .pipe => throw .waiting
  | .socket => throw .notOpenable
  | .link _ => throw .tooManyLinks

/-- Make the directory whose components are given, the last one first, and those above it. -/
def createUpwards (fs : FileSystem) (root : Path) :
    List String → Except SystemError FileSystem
  | [] => .ok fs
  | c :: above =>
    let p := root.joinAll (c :: above)
    match fs.createDirectory p with
    | .ok fs' => .ok fs'
    | .error .notFound => do
      let fs' ← fs.createUpwards root above
      fs'.createDirectory p
    | .error e => if fs.isDirectory p then .ok fs else .error e

/-- Make the directory at a path and those above it, as far as they are not there. -/
def createDirectories (fs : FileSystem) (p : Path) : Except SystemError FileSystem := do
  if p.size = 0 then return fs
  p.check
  fs.createUpwards (Path.ofString (if p.isAbsolute then "/" else "")) p.components.reverse

/-- Take away what stands at a path; a link is taken away and not what it leads to. -/
def delete (fs : FileSystem) (p : Path) : Except SystemError FileSystem :=
  (fs.locateLink p).map fs.remove

/-- The path of the working directory. -/
def currentDirectory (fs : FileSystem) : Except SystemError Path :=
  match fs.get? fs.workingDirectory with
  | some .directory => .ok ((Path.ofString "/").joinAll fs.workingDirectory)
  | _ => .error .notFound

end FileSystem

end Stencil
