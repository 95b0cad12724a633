import Stencil.CommandLine.Program
import Stencil.Disk
import Stencil.ShippedTemplate

/-!
The program `sipa`. It reads the parts of the disk that matter, runs on them as a value, and
writes back what the run has added. A run that needs one more answer is begun again with it; as
a run is determined by its answers, it then comes to the same question.
-/

namespace Stencil

/-- Where the shipped template stands in the file system that a run sees. -/
def shippedRoot : Path := .ofString "/usr/share/sipa/template"

/-- The user's own directories. An empty name counts as none. -/
def findHome : IO Home := do
  let directory := (← IO.getEnv "HOME").filter (· ≠ "")
  return ⟨directory.map Path.ofString, ← IO.getEnv "XDG_CONFIG_HOME"⟩

/-- The template that the user has set, as an absolute path. -/
def chosenTemplate? (home : Home) (fs : FileSystem) : Option Path :=
  match Config.loadUser home { files := fs } with
  | .ok config _ => config.template.map fun p =>
    if p.isAbsolute then p
    else .ofString (Disk.absolute fs.workingDirectory ++ "/" ++ p.toString)
  | .error _ _ => none

/-- The disk as far as a run can look at it. -/
def lookAround (home : Home) : IO FileSystem := do
  let here ← Disk.target? "."
  let mut fs : FileSystem := ⟨[], here.getD [Disk.nameOfNothing]⟩
  if here.isSome then
    fs := (← Disk.readNames fs fs.workingDirectory false).1
  if let some path := home.configFile? then
    fs := (← Disk.readPath fs path).1
  if let some path := chosenTemplate? home fs then
    fs ← Disk.readTree fs path
  return (ShippedTemplate.install shippedRoot fs).toOption.getD fs

/-- The number of questions that were asked. -/
def questions (prompts : List Prompt) : Nat :=
  prompts.countP fun p => match p with
    | .ask _ _ => true
    | .reject _ => false

def Prompt.text : Prompt → String
  | .ask question none => question ++ " "
  | .ask question (some offered) => question ++ " (" ++ offered ++ ") "
  | .reject reason => reason ++ "\n"

/-- Call the program with the answers that the user gives at a terminal. -/
def converse (call : List String → CommandLine.Outcome × World) :
    IO (CommandLine.Outcome × World) := do
  let input ← IO.getStdin
  let mut answers : List String := []
  let mut result := call answers
  let mut printed := 0
  let mut prompted := 0
  repeat
    let (outcome, world) := result
    IO.print (String.ofList (outcome.output.toList.drop printed))
    printed := outcome.output.length
    if !(← input.isTty) then break
    for p in world.prompts.drop prompted do
      IO.print p.text
    prompted := world.prompts.length
    if questions world.prompts ≤ answers.length then break
    (← IO.getStdout).flush
    let line ← input.getLine
    if line.isEmpty then break
    answers := answers ++ [String.ofList (line.toList.filter (· ≠ '\n'))]
    result := call answers
  return result

end Stencil

open Stencil in
def main (args : List String) : IO UInt32 := do
  let home ← findHome
  let files ← lookAround home
  let filter ← IO.getEnv "RUST_LOG"
  let (outcome, world) ← converse fun answers =>
    CommandLine.run args filter home shippedRoot { files, answers }
  for line in outcome.log ++ outcome.errors do
    IO.eprintln line
  Disk.writeBack files world.files
  return outcome.exitCode.toUInt32
