import Stencil.Path
import Stencil.Substitution

/-!
What is worth telling while a project is made.
-/

namespace Stencil

inductive Level
  | error
  | warn
  | info
  | debug
  | trace
  deriving DecidableEq, Repr

namespace Level

def name : Level → String
  | error => "ERROR"
  | warn => "WARN"
  | info => "INFO"
  | debug => "DEBUG"
  | trace => "TRACE"

/-- How much a level tells: a higher level includes the lower ones. -/
def rank : Level → Nat
  | error => 1
  | warn => 2
  | info => 3
  | debug => 4
  | trace => 5

end Level

inductive Event
  | copyingTemplate (template : Path)
  | createdDirectory (destination : Path)
  | copied (file : Path)
  | writingDescriptor
  | replacingDescriptor (path : Path)
  | substituting (policy : Policy)
  | skippedFile (file : Path)
  | filledFile (file : Path)
  | destinationTaken (path : Path)
  | noConfig (path : Path)
  deriving DecidableEq, Repr

def Policy.title : Policy → String
  | .keep => "Keep"
  | .remove => "Remove"
  | .fail => "Fail"

namespace Event

def level : Event → Level
  | copyingTemplate _ | createdDirectory _ | writingDescriptor | substituting _ => .info
  | replacingDescriptor _ => .warn
  | copied _ | skippedFile _ | filledFile _ | destinationTaken _ | noConfig _ => .debug

def message : Event → String
  | copyingTemplate _ => "copying project template"
  | createdDirectory _ => "created project directory"
  | copied _ => "copied"
  | writingDescriptor => "writing project descriptor"
  | replacingDescriptor _ => "template ships its own descriptor, replacing it"
  | substituting _ => "substituting placeholders"
  | skippedFile _ => "skipping non-text file"
  | filledFile _ => "placeholders substituted"
  | destinationTaken _ => "destination taken"
  | noConfig _ => "no user config, using defaults"

/-- The named values that go with the message. -/
def fields : Event → List (String × String)
  | copyingTemplate p => [("template", p.toString)]
  | createdDirectory p => [("destination", p.toString)]
  | copied p | skippedFile p | filledFile p => [("file", p.toString)]
  | writingDescriptor => []
  | replacingDescriptor p | destinationTaken p | noConfig p => [("path", p.toString)]
  | substituting policy => [("policy", policy.title)]

/-- One line for the reader of a log. -/
def line (e : Event) : String :=
  " ".intercalate (e.level.name :: e.message :: e.fields.map fun f => f.1 ++ "=" ++ f.2)

end Event

end Stencil
