import Stencil.Config.Basic
import Stencil.Toml.Document

/-!
Reading a configuration from TOML. Keys that are not known do not count.
-/

namespace Stencil

open Toml (Value Members)

/-- A member that is a string, if it is there. -/
def Toml.Members.text? (ms : Members) (key default : String) : Option String :=
  match ms.lookup key with
  | none => some default
  | some (.text s) => some s
  | some _ => none

def Toml.Value.isEmptyCollection : Value → Bool
  | .table _ ms => ms.isEmpty
  | .array vs | .tables vs => vs.isEmpty
  | _ => false

def Policy.ofName? : String → Option Policy
  | "keep" => some .keep
  | "remove" => some .remove
  | "fail" => some .fail
  | _ => none

/-- A policy is named by a string, or by the key of an empty table or array. The first key counts,
and between braces it must be the only one. -/
def Policy.ofToml? : Value → Option Policy
  | .text s => ofName? s
  | .table origin ((key, v) :: rest) =>
    if v.isEmptyCollection && (origin ≠ .inline || rest.isEmpty) then ofName? key else none
  | _ => none

namespace Defaults

/-- The string at place `i`, if there is anything. -/
def item? (items : List Value) (i : Nat) (default : String) : Option String :=
  match items[i]? with
  | none => some default
  | some (.text s) => some s
  | some _ => none

/-- The defaults in a table, or in an array of the version, the author and the address. A date
sets nothing. -/
def ofToml? : Value → Option Defaults
  | .table _ ms => do
    let version ← Members.text? ms "version" "0.0.1"
    let author ← Members.text? ms "author" ""
    let email ← Members.text? ms "email" ""
    return ⟨version, author, email⟩
  | .array items => do
    return ⟨← item? items 0 "0.0.1", ← item? items 1 "", ← item? items 2 ""⟩
  | .moment => some {}
  | _ => none

end Defaults

namespace Config

def template? (ms : Members) : Option (Option Path) :=
  match ms.lookup "template_dir" with
  | none => some none
  | some (.text s) => some (some (.ofString s))
  | some _ => none

def ofMembers? (ms : Members) : Option Config := do
  let template ← template? ms
  let unresolved ← ((ms.lookup "unresolved").map Policy.ofToml?).getD (some .keep)
  let defaults ← ((ms.lookup "defaults").map Defaults.ofToml?).getD (some {})
  return { template, unresolved, defaults }

/-- The configuration that a text describes. -/
def ofText? (text : String) : Option Config := do ofMembers? (← Toml.parse text)

/-- Read the configuration at a path. Where there is none, nothing is set. -/
def load (path : Path) : Run Config := do
  if !(← get).files.hasTarget path then
    Run.emit (.noConfig path)
    return {}
  else
    let failure := Failure.system ("reading user config " ++ path.toString)
    let bytes ← Run.look (·.read path) failure
    match String.fromUTF8? bytes with
    | none => throw (failure .notText)
    | some text =>
      match ofText? text with
      | none => throw (.configUnreadable path)
      | some config => return config

/-- Read the configuration of the user. -/
def loadUser (home : Home) : Run Config :=
  match home.configFile? with
  | some path => load path
  | none => return {}

end Config

end Stencil
