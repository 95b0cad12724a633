import Stencil.FileSystem.Basic

/-!
From paths to locations.

A path is followed one component after the other, from the root or from the working directory.
`advance` goes as far as it can without leaving the tree through a link; `follow` replaces a link
by its target and goes on, at most `maxLinks` times.
-/

namespace Stencil

/-- Why the system refuses a call. -/
inductive SystemError
  | notFound
  | alreadyExists
  | isADirectory
  | notADirectory
  /-- Bytes that are not UTF-8 where text is asked for. -/
  | notText
  /-- A path with a NUL character, or a file that cannot be copied. -/
  | invalidInput
  /-- A name or a path that is longer than the system takes. -/
  | nameTooLong
  | tooManyLinks
  /-- A link to a directory that is being walked. -/
  | linkToAncestor
  /-- Opening a socket. -/
  | notOpenable
  /-- Opening a pipe that nobody else has opened: the call does not return. -/
  | waiting
  /-- Any other reason. -/
  | other
  deriving DecidableEq, Repr

/-- The longest name of an entry, in bytes. -/
def maxNameSize : Nat := 255

/-- The longest path that a call takes, in bytes. -/
def maxPathSize : Nat := 4095

/-- The number of links that may be met on one path. -/
def maxLinks : Nat := 40

/-- Where a path leads: to an entry, or to a name that a directory does not hold. -/
inductive Place
  | found (l : Location)
  | vacant (d : Location) (n : Name)
  deriving DecidableEq, Repr

/-- How far a path leads without following a link. -/
inductive Progress
  | arrived (p : Place)
  /-- A link with this target stands in `d`, and the path goes on behind it. -/
  | link (d : Location) (target : Path) (rest : List String)
  | failed (e : SystemError)

/-- What a call is after at the end of a path. -/
inductive Aim
  /-- What stands there; a link is not followed. -/
  | entry
  /-- What a link there leads to. -/
  | target
  /-- A file to write; a link is followed. No slash may come behind its name. -/
  | file
  deriving DecidableEq, Repr

/-- The steps of a path. A slash at the end asks for a directory, and is the last step. -/
def Path.steps (p : Path) : List String :=
  p.components ++ if p.endsInSlash then [""] else []

/-- What can be said of a path before anything is looked up. -/
def Path.check (p : Path) : Except SystemError Unit :=
  if p.toString.toList.contains '\x00' then .error .invalidInput
  else if p.size = 0 then .error .notFound
  else if p.size > maxPathSize then .error .nameTooLong
  else .ok ()

namespace FileSystem

/-- A path may go on at `l`. A removed working directory can still be entered. -/
def canEnter (fs : FileSystem) (l : Location) : Bool :=
  match fs.get? l with
  | none => true
  | some e => e.isDirectory

/-- Why a name that is too long is refused at `l`. A removed directory does not look at it. -/
def refusal (fs : FileSystem) (l : Location) : SystemError :=
  if (fs.get? l).isSome then .nameTooLong else .notFound

/-- Go from `l` along the components, up to the first link that has to be followed. -/
def advance (fs : FileSystem) (aim : Aim) (l : Location) : List String → Progress
  | [] => .arrived (.found l)
  | c :: rest =>
    if !fs.canEnter l then .failed .notADirectory
    else if c = "" || c = "." then fs.advance aim l rest
    else if c = ".." then fs.advance aim l.tail rest
    else if aim = .file && rest = [""] then .failed .isADirectory
    else if c.utf8ByteSize > maxNameSize then .failed (fs.refusal l)
    else match fs.get? (c :: l) with
      | none => if rest.isEmpty then .arrived (.vacant l c) else .failed .notFound
      | some (.link target) =>
        if rest.isEmpty && aim = .entry then .arrived (.found (c :: l))
        else .link l target rest
      | some _ => fs.advance aim (c :: l) rest

/-- Where a path begins that is met in the directory at `d`. -/
def startOf (d : Location) (p : Path) : Location := if p.isAbsolute then [] else d

/-- Go from `l` along the components, over at most `n` stretches between links. -/
def follow (fs : FileSystem) (aim : Aim) :
    Nat → Location → List String → Except SystemError Place
  | 0, _, _ => .error .tooManyLinks
  | n + 1, l, steps =>
    match fs.advance aim l steps with
    | .arrived p => .ok p
    | .failed e => .error e
    | .link d target rest => fs.follow aim n (startOf d target) (target.steps ++ rest)

/-- Where `steps` lead, which are those of `p` with or without a slash at the end. -/
def resolve (fs : FileSystem) (aim : Aim) (p : Path) (steps : List String) :
    Except SystemError Place := do
  p.check
  fs.follow aim (maxLinks + 1) (startOf fs.workingDirectory p) steps

/-- The location of what a path names, through all links. -/
def locate (fs : FileSystem) (p : Path) : Except SystemError Location := do
  match ← fs.resolve .target p p.steps with
  | .found l => return l
  | .vacant _ _ => throw .notFound

/-- The location of what a path names; a link at its end is not followed. -/
def locateLink (fs : FileSystem) (p : Path) : Except SystemError Location := do
  match ← fs.resolve .entry p p.steps with
  | .found l => return l
  | .vacant _ _ => throw .notFound

end FileSystem

end Stencil
