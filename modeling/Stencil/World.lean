import Stencil.Event
import Stencil.Failure
import Stencil.FileSystem.Access

/-!
Runs: computations that can fail and that act on the files, the log, the questions to the user
and the printed text. A failure does not undo what was done before it.
-/

namespace Stencil

/-- What passes between the program and the user. -/
inductive Prompt
  | ask (question : String) (offered : Option String)
  | reject (reason : String)
  deriving DecidableEq, Repr

structure World where
  files : FileSystem
  /-- Oldest first. -/
  log : List Event := []
  /-- The answers that the user still has to give. -/
  answers : List String := []
  /-- Oldest first. -/
  prompts : List Prompt := []
  printed : String := ""

abbrev Run := EStateM Failure World

namespace Run

def emit (e : Event) : Run Unit := modify fun w => { w with log := w.log ++ [e] }

def print (line : String) : Run Unit :=
  modify fun w => { w with printed := w.printed ++ line ++ "\n" }

/-- Look at the files; a refusal becomes the failure `failure`. -/
def look (call : FileSystem → Except SystemError α) (failure : SystemError → Failure) :
    Run α := do
  match call (← get).files with
  | .ok a => return a
  | .error e => throw (failure e)

/-- Change the files; a refusal becomes the failure `failure` and changes nothing. -/
def change (call : FileSystem → Except SystemError FileSystem)
    (failure : SystemError → Failure) : Run Unit := do
  let files ← look call failure
  modify fun w => { w with files }

end Run

end Stencil
