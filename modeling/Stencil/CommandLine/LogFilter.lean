import Stencil.Event
import Stencil.Text.Alphanumeric

/-!
Which events are logged. A filter is a list of directives `target=level`; the one with the
longest target that an event's own target begins with decides.
-/

namespace Stencil.CommandLine

structure Directive where
  /-- None stands for all targets. -/
  target : Option String
  /-- The highest rank that is let through. -/
  rank : Nat
  deriving DecidableEq, Repr

abbrev LogFilter := List Directive

/-- The rank of a level by its name, in capitals or not, or by its number. -/
def rankOf? (name : String) : Option Nat :=
  match name.toLower with
  | "off" | "0" => some 0
  | "error" | "1" => some 1
  | "warn" | "2" => some 2
  | "info" | "3" => some 3
  | "debug" | "4" => some 4
  | "trace" | "5" => some 5
  | _ => none

/-- A character that may stand in a target. -/
def isTargetChar (c : Char) : Bool := Text.isAlphanumeric c || c = '_' || c = ':' || c = '-'

/-- Read a directive: a level, a target, or both with a sign of equality between them. A target
alone lets everything through. -/
def Directive.ofString? (s : String) : Option Directive :=
  match rankOf? s with
  | some rank => some ⟨none, rank⟩
  | none =>
    let cs := s.toList
    let target := cs.takeWhile isTargetChar
    if target.isEmpty then none
    else match cs.dropWhile isTargetChar with
      | [] | ['='] => some ⟨some (String.ofList target), 5⟩
      | '=' :: level =>
        (rankOf? (String.ofList level)).map fun rank => ⟨some (String.ofList target), rank⟩
      | _ => none

/-- The directives between the commas. -/
def LogFilter.ofString? (s : String) : Option LogFilter :=
  ((s.splitOn ",").filter (· ≠ "")).mapM Directive.ofString?

/-- What is let through at a verbosity. -/
def LogFilter.ofVerbosity (n : Nat) : LogFilter := [⟨some "sipa", min (n + 2) 5⟩]

/-- The length of the target; it is longer, the more closely a directive fits. -/
def Directive.weight (d : Directive) : Nat := (d.target.map (·.utf8ByteSize + 1)).getD 0

def Directive.fits (d : Directive) (target : String) : Bool :=
  d.target.all fun t => t.toList.isPrefixOf target.toList

/-- Of two directives that fit, the closer one; the later one of two that are equally close. -/
def closer (best : Option Directive) (d : Directive) : Option Directive :=
  match best with
  | some b => if b.weight ≤ d.weight then some d else some b
  | none => some d

/-- The filter lets an event of this target and level through. Without any directive only errors
pass. -/
def LogFilter.allows (f : LogFilter) (target : String) (level : Level) : Bool :=
  if f.isEmpty then level.rank ≤ Level.error.rank
  else match (f.filter (·.fits target)).foldl closer none with
    | some d => level.rank ≤ d.rank
    | none => false

/-- The part of the program that an event comes from, as log filters name it. -/
def eventTarget : Event → String
  | .noConfig _ => "sipa::config::user"
  | _ => "sipa"

end Stencil.CommandLine
