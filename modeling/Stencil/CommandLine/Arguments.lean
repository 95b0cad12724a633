/-!
The arguments of the program `sipa`: what they ask for, or what is wrong with them.
-/

namespace Stencil.CommandLine

/-- What can be explained: the program as a whole or one of its commands. -/
inductive Topic
  | program
  | new
  | help
  deriving DecidableEq, Repr

inductive Misuse
  | unexpectedArgument (arg : String)
  | unexpectedValue (option value : String)
  | unknownCommand (name : String)
  | missingCommand
  deriving DecidableEq, Repr

/-- What a list of arguments comes to. -/
inductive Invocation
  | start (verbosity : Nat)
  | explain (topic : Topic)
  | showVersion
  /-- No arguments at all. -/
  | nothing
  | misuse (topic : Topic) (m : Misuse)
  deriving DecidableEq, Repr

/-- An argument by its form. -/
inductive Argument
  | separator
  /-- Two dashes and a name, with a value behind a sign of equality or without. -/
  | long (name : String) (value : Option String)
  /-- A dash and one or more letters. -/
  | short (letters : List Char)
  | word (s : String)
  deriving DecidableEq, Repr

def Argument.ofString (arg : String) : Argument :=
  match arg.toList with
  | ['-', '-'] => .separator
  | '-' :: '-' :: cs =>
    let name := String.ofList (cs.takeWhile (· ≠ '='))
    match cs.dropWhile (· ≠ '=') with
    | _ :: value => .long name (some (String.ofList value))
    | [] => .long name none
  | '-' :: c :: cs => .short (c :: cs)
  | _ => .word arg

/-- What an option asks for: more words, an explanation or the version. -/
inductive Wish
  | verbose
  | explain
  | version
  deriving DecidableEq, Repr

/-- The options known where `topic` is the command so far. -/
def longOption? (topic : Topic) (name : String) : Option Wish :=
  match name with
  | "verbose" => some .verbose
  | "help" => some .explain
  | "version" => if topic = .program then some .version else none
  | _ => none

def shortOption? (topic : Topic) (letter : Char) : Option Wish :=
  match letter with
  | 'v' => some .verbose
  | 'h' => some .explain
  | 'V' => if topic = .program then some .version else none
  | _ => none

/-- An option as messages name it. -/
def Wish.title : Wish → String
  | .verbose => "--verbose..."
  | .explain => "--help"
  | .version => "--version"

/-- An option either adds to the verbosity or ends the reading of the arguments. -/
def Wish.apply (w : Wish) (topic : Topic) : Except Invocation Nat :=
  match w with
  | .verbose => .ok 1
  | .explain => .error (.explain topic)
  | .version => .error .showVersion

/-- The verbosity that letters add. -/
def applyShort (topic : Topic) : List Char → Except Invocation Nat
  | [] => .ok 0
  | c :: cs => do
    match shortOption? topic c with
    | none => throw (.misuse topic (.unexpectedArgument ("-" ++ String.ofList [c])))
    | some w =>
      let n ← w.apply topic
      return n + (← applyShort topic cs)

/-- The verbosity that a long option adds. -/
def applyLong (topic : Topic) (name : String) (value : Option String) :
    Except Invocation Nat :=
  match longOption? topic name, value with
  | none, _ => .error (.misuse topic (.unexpectedArgument ("--" ++ name)))
  | some w, some v => .error (.misuse topic (.unexpectedValue w.title v))
  | some w, none => w.apply topic

/-- The command of a name. -/
def command? (name : String) : Option Topic :=
  match name with
  | "new" | "n" => some .new
  | "help" => some .help
  | _ => none

/-- The arguments behind `new`. The verbosity given here takes the place of that before it. -/
def readNew (before here : Nat) : List String → Except Invocation Nat
  | [] => .ok (if here = 0 then before else here)
  | arg :: args => do
    match Argument.ofString arg with
    | .separator =>
      match args with
      | [] => return if here = 0 then before else here
      | arg :: _ => throw (.misuse .new (.unexpectedArgument arg))
    | .long name value => readNew before (here + (← applyLong .new name value)) args
    | .short letters => readNew before (here + (← applyShort .new letters)) args
    | .word w => throw (.misuse .new (.unexpectedArgument w))

/-- The arguments behind `help`: the command to be explained. -/
def readHelp (topic : Topic) : List String → Invocation
  | [] => .explain topic
  | name :: names =>
    match topic, command? name with
    | .program, some t => readHelp t names
    | _, _ => .misuse topic (.unknownCommand name)

/-- Nothing more is said. -/
def withoutCommand (verbosity : Nat) : Invocation :=
  if verbosity = 0 then .nothing else .misuse .program .missingCommand

/-- The arguments, when options before them have given this verbosity. -/
def readArguments (verbosity : Nat) : List String → Except Invocation Nat
  | [] => .error (withoutCommand verbosity)
  | arg :: args => do
    match Argument.ofString arg with
    | .separator =>
      match args with
      | [] => throw (withoutCommand verbosity)
      | name :: _ =>
        if (command? name).isSome then throw (.misuse .program (.unexpectedArgument name))
        else throw (.misuse .program (.unknownCommand name))
    | .long name value => readArguments (verbosity + (← applyLong .program name value)) args
    | .short letters => readArguments (verbosity + (← applyShort .program letters)) args
    | .word w =>
      match command? w with
      | some .new => readNew verbosity 0 args
      | some _ => throw (readHelp .program args)
      | none => throw (.misuse .program (.unknownCommand w))

def Invocation.ofArguments (args : List String) : Invocation :=
  match readArguments 0 args with
  | .ok verbosity => .start verbosity
  | .error i => i

end Stencil.CommandLine
