import Stencil.FileSystem.Resolve

/-!
Why a project could not be made: the causes, with the message and the advice for each.
-/

namespace Stencil

inductive Failure
  | destinationExists (path : Path)
  | templateMissing (path : Path)
  /-- A call on the file system was refused; the context says what it was for. -/
  | system (context : String) (cause : SystemError)
  /-- Copying the template stopped half way. -/
  | copyFailed (destination : Path) (context : String) (cause : SystemError)
  | descriptorUnwritable
  /-- The policy refuses a placeholder without a value. -/
  | unresolved (file : Path) (name : String)
  | configUnreadable (path : Path)
  | cancelled
  deriving DecidableEq, Repr

namespace Failure

def message : Failure → String
  | destinationExists p => "Destination directory already exists: " ++ p.toString
  | templateMissing p => "Template directory not found: " ++ p.toString
  | system context _ => "IO error: " ++ context
  | copyFailed p context _ =>
    "Failed to copy template into " ++ p.toString ++ ": " ++ context
  | descriptorUnwritable => "Failed to serialize the project descriptor"
  | unresolved file name =>
    "Unresolved placeholder '\x7b\x7b" ++ name ++ "\x7d\x7d' in " ++ file.toString
  | configUnreadable p => "Failed to parse config file " ++ p.toString
  | cancelled => "Prompt cancelled by user"

/-- What the user can do about it. -/
def help? : Failure → Option String
  | destinationExists _ =>
    some "Choose another project name or remove the existing directory"
  | templateMissing _ =>
    some "Set `template_dir` in your sipa config.toml to a valid project template"
  | copyFailed p _ _ =>
    some ("The destination was left partially populated; remove " ++ p.toString
      ++ " manually before retrying")
  | unresolved _ _ =>
    some "Bind the variable or switch `unresolved` to \"keep\" or \"remove\""
  | configUnreadable _ => some "Check the TOML syntax in your sipa config.toml"
  | system _ _ | descriptorUnwritable | cancelled => none

/-- The refusal of the system that caused the failure. -/
def cause? : Failure → Option SystemError
  | system _ e | copyFailed _ _ e => some e
  | _ => none

end Failure

end Stencil
