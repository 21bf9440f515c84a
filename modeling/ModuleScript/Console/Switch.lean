import ModuleScript.Text.Decimal

/-!
# Switches

The switches of the command line, how each is spelt, and the texts that tell about them.
-/

set_option autoImplicit false

namespace ModuleScript.Console

inductive Switch where
  | help
  | repl
  | lint
  | version
  | debug
  | recursionLimit
  deriving DecidableEq, Repr

/-- How deeply a program may nest if nothing else is asked for. -/
def defaultLimit : Int := 10000

namespace Switch

def all : List Switch := [help, repl, lint, version, debug, recursionLimit]

def spellings : Switch → List Text
  | help => ["-h", "--help"]
  | repl => ["--repl", "-r"]
  | lint => ["--lint", "-l"]
  | version => ["--version", "-v"]
  | debug => ["--debug", "-g"]
  | recursionLimit => ["--recursion-limit"]

def argument? : Switch → Option Text
  | recursionLimit => some "RECURSION_LIMIT"
  | _ => none

def takesArgument (s : Switch) : Bool := s.argument?.isSome

def description : Switch → Text
  | help => "show this help message and exit"
  | repl => "Start an interactive session"
  | lint => "Check files for syntax errors without running them"
  | version => "show program's version number and exit"
  | debug => "Enable debug logging"
  | recursionLimit =>
    "Maximum nesting of evaluation (default: " ++ Decimal.ofInt defaultLimit ++ ")"

def label (s : Switch) : Text := Text.join "/" s.spellings

def vocabulary : List (Text × Switch) := all.flatMap fun s => s.spellings.map (·, s)

def named? (t : Text) : Option Switch := vocabulary.lookup t

def beginningWith (t : Text) : List (Text × Switch) := vocabulary.filter (t.isPrefixOf ·.1)

def invocation (s : Switch) : Text :=
  Text.join ", " (s.spellings.map fun t =>
    match s.argument? with
    | some a => t ++ " " ++ a
    | none => t)

end Switch

def descriptionColumn : Nat := 24

/-- A row of help. What is too long for the column of names has its description on a line of its
own. -/
def helpRow (invocation description : Text) : Text :=
  let blanks (n : Nat) : Text := List.replicate n ' '
  let field : Text := "  " ++ invocation
  let gap : Text :=
    if field.length + 2 ≤ descriptionColumn then blanks (descriptionColumn - field.length)
    else CodePoint.newline :: blanks descriptionColumn
  field ++ gap ++ description ++ "\n"

def usage : Text :=
  "usage: rustscript [-h] [--repl] [--lint] [--version] [--debug]\n" ++
    ("                  [--recursion-limit RECURSION_LIMIT]\n" : Text) ++
    ("                  [files ...]\n" : Text)

def help : Text :=
  usage ++ "\nRustScript interpreter\n\npositional arguments:\n" ++
    helpRow "files" "Source files to run" ++ "\noptions:\n" ++
    (Switch.all.map fun s => helpRow s.invocation s.description).flatten

def version : Text := "rustscript 0.1.0\n"

end ModuleScript.Console
