import Stencil.Toml.Value

/-!
Building tables. A key with dots leads through tables that are made on the way; a header leads
through tables too. What has been written down as complete is not added to.
-/

namespace Stencil.Toml

namespace Members

/-- Put `v` in the place of the value of `key`. -/
def replace (key : String) (v : Value) : Members → Members
  | [] => []
  | m :: ms => if m.1 = key then (key, v) :: ms else m :: replace key v ms

def remove (key : String) (ms : Members) : Members := ms.filter (·.1 ≠ key)

/-- Change the table to which the keys lead, starting at a table of the given origin. Keys with
dots lead through no table that a header names. An array of tables stands for its last one. -/
def update (dots : Bool) (change : Origin → Members → Option Members) :
    List String → Origin → Members → Option Members
  | [], origin, ms => change origin ms
  | key :: keys, _, ms =>
    match ms.lookup key with
    | none => do
      let origin := if dots then .dotted else .implied
      return ms ++ [(key, .table origin (← update dots change keys origin []))]
    | some (.table origin inner) =>
      if origin = .inline || (dots && origin = .header) then none
      else do return ms.replace key (.table origin (← update dots change keys origin inner))
    | some (.tables items) =>
      match items.reverse with
      | .table origin inner :: before => do
        let last := .table origin (← update dots change keys origin inner)
        return ms.replace key (.tables (last :: before).reverse)
      | _ => none
    | some _ => none

/-- Add a new member. A table made by dots takes only what comes with dots, and no other does. -/
def addMember (withDots : Bool) (key : String) (v : Value) (origin : Origin) (ms : Members) :
    Option Members :=
  if decide (origin = .dotted) != withDots then none
  else if (ms.lookup key).isSome then none
  else some (ms ++ [(key, v)])

/-- Add a value under a key with or without dots. -/
def addValue (key : List String) (v : Value) (origin : Origin) (ms : Members) :
    Option Members := do
  let last ← key.getLast?
  update true (addMember (key.length > 1) last v) key.dropLast origin ms

/-- Begin the table that a header names, which may have been implied before. -/
def openTable (key : String) (_ : Origin) (ms : Members) : Option Members :=
  match ms.lookup key with
  | none => some (ms ++ [(key, .table .header [])])
  | some (.table .implied inner) => some (ms.remove key ++ [(key, .table .header inner)])
  | some _ => none

/-- Begin the next table of an array. -/
def openElement (key : String) (_ : Origin) (ms : Members) : Option Members :=
  match ms.lookup key with
  | none => some (ms ++ [(key, .tables [.table .header []])])
  | some (.tables items) => some (ms.replace key (.tables (items ++ [.table .header []])))
  | some _ => none

/-- The members of an inline table. -/
def ofInline (pairs : List (List String × Value)) : Option Members :=
  pairs.foldlM (fun ms p => addValue p.1 p.2 .inline ms) []

end Members

end Stencil.Toml
