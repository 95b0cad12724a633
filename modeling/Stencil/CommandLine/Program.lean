import Stencil.CommandLine.Arguments
import Stencil.CommandLine.LogFilter
import Stencil.Config.Reading
import Stencil.Wizard

/-!
The program as a whole: from the arguments to what is printed and the exit code.
-/

namespace Stencil.CommandLine

/-- What a call of the program leaves behind. -/
structure Outcome where
  exitCode : Nat
  output : String := ""
  /-- Lines on the error output other than those of the log. -/
  errors : List String := []
  log : List String := []

def version : String := "0.1.0"

def description : String := "Create new sipa web projects from the bundled template"

def verboseLine : String :=
  "  -v, --verbose...  Increase log verbosity (-v info, -vv debug, -vvv trace)"

/-- How a command is called. -/
def usageLine : Topic → String
  | .program => "Usage: sipa [OPTIONS] <COMMAND>"
  | .new => "Usage: sipa new [OPTIONS]"
  | .help => "Usage: sipa help [COMMAND]..."

def helpLines : Topic → List String
  | .program => [
    description, "",
    usageLine .program, "",
    "Commands:",
    "  new   Create a new project in the current directory [alias: n]",
    "  help  Print this message or the help of the given subcommand(s)", "",
    "Options:",
    verboseLine,
    "  -h, --help        Print help",
    "  -V, --version     Print version"]
  | .new => [
    "Create a new project in the current directory", "",
    usageLine .new, "",
    "Options:",
    verboseLine,
    "  -h, --help        Print help"]
  | .help => [
    "Print this message or the help of the given subcommand(s)", "",
    usageLine .help, "",
    "Arguments:",
    "  [COMMAND]...  Print help for the subcommand(s)"]

def Misuse.message : Misuse → String
  | .unexpectedArgument arg => "unexpected argument '" ++ arg ++ "' found"
  | .unexpectedValue option value =>
    "unexpected value '" ++ value ++ "' for '" ++ option ++ "' found; no more were expected"
  | .unknownCommand name => "unrecognized subcommand '" ++ name ++ "'"
  | .missingCommand => "'sipa' requires a subcommand but one was not provided"

def Misuse.lines (topic : Topic) (m : Misuse) : List String :=
  ["error: " ++ m.message, "", usageLine topic, "", "For more information, try '--help'."]

/-- How a failure is shown. -/
def failureLines (f : Failure) : List String :=
  ("Error:   × " ++ f.message) :: (f.help?.map ("  help: " ++ ·)).toList

def asText (lines : List String) : String := String.join (lines.map (· ++ "\n"))

/-- Make a project in the working directory, as the user's configuration says. -/
def newProject (home : Home) (shipped : Path) : Run Project := do
  let config ← Config.loadUser home
  let base ← Run.look (·.currentDirectory) (.system "getting current directory")
  Wizard.run config shipped base

/-- The lines of the log that the filter lets through. -/
def logLines (filter : LogFilter) (log : List Event) : List String :=
  (log.filter fun e => filter.allows (eventTarget e) e.level).map Event.line

/-- The filter in force: one that is given and can be read, else the one of the verbosity. -/
def filterOf (given : Option String) (verbosity : Nat) : LogFilter :=
  (given.bind LogFilter.ofString?).getD (.ofVerbosity verbosity)

/-- What the wizard leaves behind. -/
def report (filter : LogFilter) (r : EStateM.Result Failure World Project) : Outcome × World :=
  match r with
  | .ok _ w => (⟨0, w.printed, [], logLines filter w.log⟩, w)
  | .error f w => (⟨1, w.printed, failureLines f, logLines filter w.log⟩, w)

/-- Call the program in a world. `filter` is the log filter that the user has set. -/
def run (args : List String) (filter : Option String) (home : Home) (shipped : Path)
    (w : World) : Outcome × World :=
  match Invocation.ofArguments args with
  | .start verbosity => report (filterOf filter verbosity) (newProject home shipped w)
  | .explain topic => ({ exitCode := 0, output := asText (helpLines topic) }, w)
  | .showVersion => ({ exitCode := 0, output := "sipa " ++ version ++ "\n" }, w)
  | .nothing => ({ exitCode := 2, errors := helpLines .program }, w)
  | .misuse topic m => ({ exitCode := 2, errors := m.lines topic }, w)

end Stencil.CommandLine
