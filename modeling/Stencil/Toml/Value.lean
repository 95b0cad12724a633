/-!
TOML values. A table remembers how it came to be, for that decides what may still be added to it.
-/

namespace Stencil.Toml

/-- How a table came to be. -/
inductive Origin
  /-- Written between braces; it is complete. -/
  | inline
  /-- Named by a header. -/
  | header
  /-- Only on the way to a table that a header names. -/
  | implied
  /-- On the way of a key with dots. -/
  | dotted
  deriving DecidableEq, Repr

inductive Value
  | text (s : String)
  | integer (n : Int)
  | float
  | boolean (b : Bool)
  | moment
  | array (items : List Value)
  /-- The members are in the order in which they were added. -/
  | table (origin : Origin) (members : List (String × Value))
  /-- An array whose tables are named by headers, one after the other. -/
  | tables (items : List Value)
  deriving Repr

abbrev Members := List (String × Value)

end Stencil.Toml
