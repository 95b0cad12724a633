import Stencil.Toml.Quoted
import Stencil.Toml.Scalar
import Stencil.Toml.Table

/-!
The lines of a TOML text: headers and keys with their values.
-/

namespace Stencil.Toml

def isBlank (c : Char) : Bool := c = ' ' || c = '\t'

def skipBlanks (cs : List Char) : List Char := cs.dropWhile isBlank

/-- Skip a line end. -/
def skipNewline : List Char → Option (List Char)
  | '\n' :: cs => some cs
  | '\r' :: '\n' :: cs => some cs
  | _ => none

/-- Skip the rest of a line, which holds a comment at most. -/
def endLine (cs : List Char) : Option (List Char) :=
  let cs := match skipBlanks cs with
    | '#' :: cs => cs.dropWhile isPlain
    | cs => cs
  if cs.isEmpty then some [] else skipNewline cs

/-- Skip blanks, line ends and comments between the items of an array. -/
def skipSpace (comment : Bool) : List Char → List Char
  | [] => []
  | c :: cs =>
    if c = '\n' then skipSpace false cs
    else if c = '\r' && startsWithNewline cs then skipSpace comment cs
    else if comment then if isPlain c then skipSpace true cs else c :: cs
    else if c = '#' then skipSpace true cs
    else if isBlank c then skipSpace false cs
    else c :: cs

/-! ## Keys -/

/-- A key may have fewer parts than this. -/
def maxKeyParts : Nat := 80

def isBareKeyChar (c : Char) : Bool := c.isAlphanum || c = '_' || c = '-'

/-- Read one part of a key and the blanks around it. -/
def readKeyPart (cs : List Char) : Option (String × List Char) := do
  let cs := skipBlanks cs
  match cs with
  | '"' :: _ | '\'' :: _ =>
    let (s, cs) ← readSimpleString cs
    return (s, skipBlanks cs)
  | _ =>
    let bare := cs.takeWhile isBareKeyChar
    if bare.isEmpty then none
    return (String.ofList bare, skipBlanks (cs.dropWhile isBareKeyChar))

/-- Read at most `n` parts of a key. -/
def readKeyParts : Nat → List Char → Option (List String × List Char)
  | 0, _ => none
  | n + 1, cs => do
    let (part, cs) ← readKeyPart cs
    match cs with
    | '.' :: cs =>
      let (parts, cs) ← readKeyParts n cs
      return (part :: parts, cs)
    | cs => return ([part], cs)

def readKey (cs : List Char) : Option (List String × List Char) :=
  readKeyParts (maxKeyParts - 1) cs

/-! ## Values -/

/-- Read the items of an array up to its end, in at most `n` steps. -/
def readItems (item : List Char → Option (Value × List Char)) :
    Nat → List Char → Option (List Value × List Char)
  | 0, _ => none
  | n + 1, cs =>
    match skipSpace false cs with
    | ']' :: cs => some ([], cs)
    | cs => do
      let (v, cs) ← item cs
      match skipSpace false cs with
      | ',' :: cs =>
        let (vs, cs) ← readItems item n cs
        return (v :: vs, cs)
      | ']' :: cs => return ([v], cs)
      | _ => none

/-- Read a key, the sign of equality and the value. -/
def readMember (value : List Char → Option (Value × List Char)) (cs : List Char) :
    Option ((List String × Value) × List Char) := do
  let (key, cs) ← readKey cs
  match cs with
  | '=' :: cs =>
    let (v, cs) ← value (skipBlanks cs)
    return ((key, v), skipBlanks cs)
  | _ => none

/-- Read the members of an inline table up to its end, in at most `n` steps. -/
def readMembers (value : List Char → Option (Value × List Char)) :
    Nat → List Char → Option (List (List String × Value) × List Char)
  | 0, _ => none
  | n + 1, cs => do
    let (member, cs) ← readMember value cs
    match cs with
    | ',' :: cs =>
      let (members, cs) ← readMembers value n cs
      return (member :: members, cs)
    | '}' :: cs => return ([member], cs)
    | _ => none

/-- Arrays and inline tables may stand this deep in each other. -/
def maxNesting : Nat := 79

/-- Read a value that holds no others. -/
def readLeaf (cs : List Char) : Option (Value × List Char) :=
  match cs with
  | '"' :: _ | '\'' :: _ => (readString cs).map fun (s, rest) => (.text s, rest)
  | _ => readWord cs

/-- Read a value in which arrays and inline tables stand at most `depth` deep. -/
def readValue : Nat → List Char → Option (Value × List Char)
  | 0, cs => readLeaf cs
  | depth + 1, '[' :: cs => do
    let (items, cs) ← readItems (readValue depth) (cs.length + 1) cs
    return (.array items, cs)
  | depth + 1, '{' :: cs =>
    match skipBlanks cs with
    | '}' :: cs => some (.table .inline [], cs)
    | cs => do
      let (members, cs) ← readMembers (readValue depth) (cs.length + 1) cs
      return (.table .inline (← Members.ofInline members), cs)
  | _ + 1, cs => readLeaf cs

/-! ## Lines -/

inductive Statement
  | header (key : List String)
  | elementHeader (key : List String)
  | member (key : List String) (v : Value)
  deriving Repr

/-- Read a statement and the rest of its line. -/
def readStatement (cs : List Char) : Option (Statement × List Char) :=
  match cs with
  | '[' :: '[' :: cs => do
    let (key, cs) ← readKey cs
    match cs with
    | ']' :: ']' :: cs => return (.elementHeader key, ← endLine cs)
    | _ => none
  | '[' :: cs => do
    let (key, cs) ← readKey cs
    match cs with
    | ']' :: cs => return (.header key, ← endLine cs)
    | _ => none
  | cs => do
    let ((key, v), cs) ← readMember (readValue maxNesting) cs
    return (.member key v, ← endLine cs)

/-- Read the statements of a text, in at most `n` steps. -/
def readStatements : Nat → List Char → Option (List Statement)
  | 0, _ => none
  | n + 1, cs =>
    match skipBlanks cs with
    | [] => some []
    | '#' :: cs => do readStatements n (← endLine ('#' :: cs))
    | '\n' :: cs => readStatements n cs
    | '\r' :: cs => do readStatements n (← skipNewline ('\r' :: cs))
    | cs => do
      let (s, cs) ← readStatement cs
      return s :: (← readStatements n cs)

end Stencil.Toml
