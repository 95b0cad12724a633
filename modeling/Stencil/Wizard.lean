import Stencil.Config.Basic

/-!
The wizard: it asks for the name, the version, the author and the address, and makes the project.

A name is asked for again until the directory that it gives is free. A blank answer to a later
question stands for the default.
-/

namespace Stencil

/-- The name gives a directory, and nothing stands in its place below `base`. -/
def FileSystem.isAvailable (fs : FileSystem) (base : Path) (name : String) : Bool :=
  dashCase name != "" && !fs.occupied (destinationOf base name)

namespace Wizard

/-- Ask, and take the next answer. Without one the user has given up. -/
def ask (question : String) (offered : Option String) : Run String := do
  modify fun w => { w with prompts := w.prompts ++ [.ask question offered] }
  match (← get).answers with
  | [] => throw .cancelled
  | answer :: rest =>
    modify fun w => { w with answers := rest }
    return answer

def reject (reason : String) : Run Unit :=
  modify fun w => { w with prompts := w.prompts ++ [.reject reason] }

def nameQuestion : String := "Please enter your project name"

def versionQuestion : String := "Please enter your initial project version"

def authorQuestion : String := "Please enter your project author name"

def emailQuestion : String := "Please enter your project author email address"

def missingName : String := "A project name is required."

def unusableName (name : String) : String :=
  "Project name '" ++ name ++ "' has no letters or digits to build a directory name from."

def takenName (name : String) : String :=
  "Invalid project name '" ++ name ++ "'. There is already a directory '" ++ dashCase name ++ "'."

/-- Ask for a name that can be used below `base`, at most `n` times. -/
def askName (base : Path) : Nat → Run String
  | 0 => throw .cancelled
  | n + 1 => do
    let name := Text.trimmed (← ask nameQuestion none)
    if name = "" then
      reject missingName
      askName base n
    else if dashCase name = "" then
      reject (unusableName name)
      askName base n
    else if (← get).files.isAvailable base name then
      return name
    else
      Run.emit (.destinationTaken (destinationOf base name))
      reject (takenName name)
      askName base n

/-- Ask a question that `default` answers where the user does not. -/
def askOr (question default : String) : Run String := do
  let answer := Text.trimmed (← ask question (if default = "" then none else some default))
  return if answer = "" then default else answer

/-- Ask for all that makes up a request. Every name that is asked for takes an answer. -/
def collect (base : Path) (defaults : Defaults) : Run Request := do
  let name ← askName base ((← get).answers.length + 1)
  let version ← askOr versionQuestion defaults.version
  let author ← askOr authorQuestion defaults.author
  let email ← askOr emailQuestion defaults.email
  return ⟨name, version, author, email⟩

/-- Print a heading behind an empty line, and lines below it. -/
def printSection (heading : String) (lines : List String) : Run Unit := do
  Run.print ("\n" ++ heading)
  lines.forM fun line => Run.print ("  " ++ line)

def summaryLine (report : Report) : String :=
  toString report.filled.length ++ " files fitted, "
    ++ toString (report.unchanged.length + report.skipped.length) ++ " left as is"

def startLine (directory : String) : String :=
  "To start the development server, cd " ++ directory
    ++ " into your project directory and run sipa server."

/-- Ask the user and make the project below `base`. -/
def run (config : Config) (shipped base : Path) : Run Project := do
  printSection "Create new project" [
    "Welcome to the project wizard to create a new sipa project!",
    "Answer the questions wisely!"]
  let request ← collect base config.defaults
  printSection "Creating project ..." []
  let project ← scaffold request (config.options shipped base)
  Run.print ("  Project dir " ++ project.destination.toString)
  Run.print ("  " ++ summaryLine project.report)
  printSection "Ready to start!" [
    "Hey, your basic project has been created, it's time to have fun again!",
    "",
    startLine request.directoryName]
  return project

end Wizard

end Stencil
