import Stencil.Toml.Statement

/-!
TOML texts as a whole: what the statements make of the root table.
-/

namespace Stencil.Toml

/-- The members of the root so far, and the table that the next member belongs to. -/
structure Document where
  root : Members := []
  current : List String := []

namespace Document

/-- Take up a statement, if it does not contradict those before it. -/
def add (d : Document) : Statement → Option Document
  | .header key => do
    let root ← Members.update false (Members.openTable (← key.getLast?)) key.dropLast .header d.root
    return ⟨root, key⟩
  | .elementHeader key => do
    let root ←
      Members.update false (Members.openElement (← key.getLast?)) key.dropLast .header d.root
    return ⟨root, key⟩
  | .member key v => do
    let root ← Members.update false (Members.addValue key v) d.current .header d.root
    return { d with root }

end Document

/-- A byte-order mark at the beginning does not count. -/
def dropMark : List Char → List Char
  | '\ufeff' :: cs => cs
  | cs => cs

/-- The members of the table that a text describes. -/
def parse (text : String) : Option Members := do
  let cs := dropMark text.toList
  let statements ← readStatements (cs.length + 1) cs
  let d ← statements.foldlM Document.add {}
  return d.root

end Stencil.Toml
