import Stencil.Bindings
import Stencil.Json.Quoted
import Stencil.Json.Record
import Stencil.Request

/-!
The project descriptor: who made which project, kept as JSON in the file `package.json`.
-/

namespace Stencil

structure Author where
  name : String
  email : String
  deriving DecidableEq, Repr

structure Descriptor where
  name : String
  description : String
  version : String
  author : Author
  deriving DecidableEq, Repr

namespace Descriptor

/-- The file at the root of a project that holds its descriptor. -/
def fileName : String := "package.json"

def ofRequest (r : Request) : Descriptor :=
  ⟨r.directoryName, r.name, r.version, ⟨r.author, r.email⟩⟩

/-- The variables that the files of a template may name. -/
def bindings (d : Descriptor) : Bindings :=
  .ofList [("version", d.version), ("project_name", d.name)]

/-- A member of an object, on a line of its own behind `indent`. -/
def memberLine (indent name value : String) : String :=
  indent ++ Json.quoted name ++ ": " ++ value

/-- The descriptor as it is written: one member to a line, two blanks deeper for each object. -/
def render (d : Descriptor) : String :=
  "\x7b\n"
    ++ memberLine "  " "name" (Json.quoted d.name) ++ ",\n"
    ++ memberLine "  " "description" (Json.quoted d.description) ++ ",\n"
    ++ memberLine "  " "version" (Json.quoted d.version) ++ ",\n"
    ++ memberLine "  " "author" "\x7b" ++ "\n"
    ++ memberLine "    " "name" (Json.quoted d.author.name) ++ ",\n"
    ++ memberLine "    " "email" (Json.quoted d.author.email) ++ "\n"
    ++ "  \x7d\n\x7d"

end Descriptor

/-! ## Reading -/

namespace Author

open Json

/-- The members found so far. -/
structure Found where
  name : Option String := none
  email : Option String := none

def member (key : String) (s : Found) (bs : Bytes) : Except Fault (Found × Bytes) := do
  match key with
  | "name" =>
    let (v, bs) ← readOnce s.name readText bs
    return ({ s with name := some v }, bs)
  | "email" =>
    let (v, bs) ← readOnce s.email readText bs
    return ({ s with email := some v }, bs)
  | _ => return (s, ← skipMemberValue bs)

def Found.complete (s : Found) : Except Fault Author :=
  match s with
  | ⟨some name, some email⟩ => .ok ⟨name, email⟩
  | _ => .error .mismatched

/-- Read an author: an object, or an array of the name and the address. -/
def parse (bs : Bytes) : Except Fault (Author × Bytes) := do
  match skipBlanks bs with
  | 0x7b :: bs =>
    let (s, bs) ← readMembers member (bs.length + 1) true {} bs
    return (← s.complete, bs)
  | 0x5b :: bs =>
    let (name, bs) ← readText (← nextItem true bs)
    let (email, bs) ← readText (← nextItem false bs)
    return (⟨name, email⟩, ← closeArray bs)
  | bs => throw (shapeFault bs)

end Author

namespace Descriptor

open Json

/-- The members found so far. -/
structure Found where
  name : Option String := none
  description : Option String := none
  version : Option String := none
  author : Option Author := none

def member (key : String) (s : Found) (bs : Bytes) : Except Fault (Found × Bytes) := do
  match key with
  | "name" =>
    let (v, bs) ← readOnce s.name readText bs
    return ({ s with name := some v }, bs)
  | "description" =>
    let (v, bs) ← readOnce s.description readText bs
    return ({ s with description := some v }, bs)
  | "version" =>
    let (v, bs) ← readOnce s.version readText bs
    return ({ s with version := some v }, bs)
  | "author" =>
    let (v, bs) ← readOnce s.author Author.parse bs
    return ({ s with author := some v }, bs)
  | _ => return (s, ← skipMemberValue bs)

def Found.complete (s : Found) : Except Fault Descriptor :=
  match s with
  | ⟨some name, some description, some version, some author⟩ =>
    .ok ⟨name, description, version, author⟩
  | _ => .error .mismatched

/-- Read a descriptor: an object, or an array of its fields in order. -/
def parse (bs : Bytes) : Except Fault (Descriptor × Bytes) := do
  match skipBlanks bs with
  | 0x7b :: bs =>
    let (s, bs) ← readMembers member (bs.length + 1) true {} bs
    return (← s.complete, bs)
  | 0x5b :: bs =>
    let (name, bs) ← readText (← nextItem true bs)
    let (description, bs) ← readText (← nextItem false bs)
    let (version, bs) ← readText (← nextItem false bs)
    let (author, bs) ← Author.parse (← nextItem false bs)
    return (⟨name, description, version, author⟩, ← closeArray bs)
  | bs => throw (shapeFault bs)

/-- The descriptor that the bytes of a file hold, with nothing else but blanks. -/
def ofBytes (bytes : ByteArray) : Except Fault Descriptor := do
  let (d, bs) ← parse bytes.data.toList
  closeText bs
  return d

end Descriptor

end Stencil
