import ModuleScript.Console.Switch
import ModuleScript.Fault
import ModuleScript.Text.Blank
import ModuleScript.Text.Digit
import ModuleScript.Text.Quoted

/-!
# Arguments

How the arguments of the command line are read. Each argument is first sorted by its form: a switch,
spelt out or begun far enough to tell which, or a plain argument. All are sorted before any takes
effect. Then they take effect from left to right. Only one run of neighbouring plain arguments names
files; plain arguments elsewhere belong to nothing and are refused at the end.
-/

set_option autoImplicit false

namespace ModuleScript.Console

inductive Complaint where
  /-- The beginning of a switch begins several. -/
  | ambiguous (argument : Text) (candidates : List Text)
  | argumentExpected (s : Switch)
  | argumentIgnored (s : Switch) (argument : Text)
  | notInteger (s : Switch) (argument : Text)
  | unrecognized (arguments : List Text)
  | filesNeeded
  deriving DecidableEq, Repr

namespace Complaint

def about (s : Switch) (t : Text) : Text := "argument " ++ s.label ++ ": " ++ t

def message : Complaint → Text
  | ambiguous a cs => "ambiguous option: " ++ a ++ " could match " ++ Text.join ", " cs
  | argumentExpected s => about s "expected one argument"
  | argumentIgnored s a => about s ("ignored explicit argument " ++ Text.quoted a)
  | notInteger s a => about s ("invalid int value: " ++ Text.quoted a)
  | unrecognized as => "unrecognized arguments: " ++ Text.join " " as
  | filesNeeded => "--lint needs at least one file"

def text (c : Complaint) : Text := usage ++ "rustscript: error: " ++ c.message ++ "\n"

end Complaint

/-! ## Forms -/

inductive Attached where
  | nothing
  /-- An argument behind an equals sign. -/
  | assigned (t : Text)
  /-- More letters behind a switch of one letter. -/
  | letters (t : Text)
  deriving DecidableEq, Repr

inductive Argument where
  | plain (t : Text)
  /-- Two dashes: all that follows is plain. -/
  | terminator
  | switch (s : Switch) (attached : Attached)
  /-- Has the form of a switch and is none. -/
  | unknown (t : Text)
  deriving DecidableEq, Repr

namespace Argument

def dash : CodePoint := '-'

def equals : CodePoint := '='

/-- What is before the first equals sign, and what is behind it if there is one. -/
def splitAssigned (t : Text) : Text × Attached :=
  let name := t.takeWhile (· != equals)
  match t.drop name.length with
  | [] => (name, .nothing)
  | _ :: value => (name, .assigned value)

def areDigits (t : Text) : Bool := !t.isEmpty && t.all CodePoint.isDigit

/-- What follows a dash in a negative numeral: digits, or digits with a point before the last of
them. A newline at the end does not count. -/
def isNumeral (t : Text) : Bool :=
  let plain (t : Text) : Bool :=
    let whole := t.takeWhile CodePoint.isDigit
    match t.drop whole.length with
    | [] => areDigits whole
    | c :: fraction => c == '.' && areDigits fraction
  plain t || (t.getLast? == some CodePoint.newline && plain t.dropLast)

/-- What could be meant by an argument that begins with a dash and is no switch as it stands. -/
def candidates (t : Text) : List (Text × Argument) :=
  match t with
  | c :: d :: rest =>
    if d = dash then
      let (name, attached) := splitAssigned t
      (Switch.beginningWith name).map fun (spelling, s) => (spelling, .switch s attached)
    else
      match Switch.named? [c, d] with
      | some s => [([c, d], .switch s (.letters rest))]
      | none => []
  | _ => []

/-- The form of an argument that begins with a dash and has more behind it. -/
def ofDashed (t : Text) : Except Complaint Argument :=
  match Switch.named? t with
  | some s => .ok (.switch s .nothing)
  | none =>
    let (name, attached) := splitAssigned t
    match Switch.named? name, attached with
    | some s, .assigned value => .ok (.switch s (.assigned value))
    | _, _ =>
      match candidates t with
      | [(_, a)] => .ok a
      | [] => .ok (if isNumeral (t.drop 1) || t.contains ' ' then .plain t else .unknown t)
      | several => .error (.ambiguous t (several.map (·.1)))

def ofText (t : Text) : Except Complaint Argument :=
  match t with
  | c :: _ :: _ => if c = dash then ofDashed t else .ok (.plain t)
  | _ => .ok (.plain t)

def ofTexts : List Text → Except Complaint (List Argument)
  | [] => .ok []
  | t :: rest =>
    if t = [dash, dash] then .ok (.terminator :: rest.map .plain)
    else do
      let a ← ofText t
      return a :: (← ofTexts rest)

end Argument

/-! ## Effects -/

structure Settings where
  files : List Text := []
  repl : Bool := false
  lint : Bool := false
  recursionLimit : Int := defaultLimit
  deriving DecidableEq, Repr

inductive Stop where
  | help
  | version
  | complaint (c : Complaint)
  deriving DecidableEq, Repr

/-- Where reading stands with the run of plain arguments that names the files. -/
inductive FileRun where
  | before
  | inside
  | after
  deriving DecidableEq, Repr

structure Reading where
  settings : Settings := {}
  fileRun : FileRun := .before
  /-- What belongs to nothing. -/
  strays : List Text := []
  deriving DecidableEq, Repr

/-- White space around a number, which leaves out the separators of information. -/
def isPadding (c : CodePoint) : Bool := c.isBlank && !(0x1C ≤ c.val && c.val ≤ 0x1F)

/-- Digits with at most one underscore between neighbours. -/
def groupedDigits : Text → Option (List Nat)
  | [] => none
  | [c] => c.digit?.map ([·])
  | c :: d :: rest => do
    let v ← c.digit?
    let vs ← if d = '_' then groupedDigits rest else groupedDigits (d :: rest)
    return v :: vs

def integer? (t : Text) : Option Int := do
  let t := Text.dropEndWhile isPadding (t.dropWhile isPadding)
  let (negative, digits) : Bool × Text := match t with
    | [] => (false, [])
    | c :: rest => if c = '-' then (true, rest) else (false, if c = '+' then rest else t)
  let n ← (Decimal.read (← groupedDigits digits)).toOption
  return if negative then -n else n

namespace Reading

/-- An argument that is not plain ends the run of files if it has begun. -/
def leaveFiles (r : Reading) : Reading :=
  match r.fileRun with
  | .inside => { r with fileRun := .after }
  | _ => r

def stray (r : Reading) (t : Text) : Reading := { r with strays := r.strays ++ [t] }

def plain (r : Reading) (t : Text) : Reading :=
  match r.fileRun with
  | .after => r.stray t
  | _ => { r with
      settings := { r.settings with files := r.settings.files ++ [t] }, fileRun := .inside }

/-- Two dashes where files may stand only begin plain arguments. -/
def terminator (r : Reading) : Reading :=
  match r.fileRun with
  | .after => r.stray [Argument.dash, Argument.dash]
  | _ => { r with fileRun := .inside }

def flag (r : Reading) : Switch → Except Stop Reading
  | .help => .error .help
  | .version => .error .version
  | .repl => .ok { r with settings := { r.settings with repl := true } }
  | .lint => .ok { r with settings := { r.settings with lint := true } }
  | .debug | .recursionLimit => .ok r

def limit (r : Reading) (s : Switch) (t : Text) : Except Stop Reading :=
  match integer? t with
  | some i => .ok { r with settings := { r.settings with recursionLimit := i } }
  | none => .error (.complaint (.notInteger s t))

/-- The switches named by letters behind a switch. The first letter that names none ends them and
is a stray together with what follows it. -/
def letters (s : Switch) : Text → Except Stop (List Switch × List Text)
  | [] => .ok ([], [])
  | c :: rest =>
    if c = Argument.dash then .error (.complaint (.argumentIgnored s (c :: rest)))
    else
      match Switch.named? [Argument.dash, c] with
      | none => .ok ([], [Argument.dash :: c :: rest])
      | some next =>
        match rest with
        | d :: value =>
          if d = Argument.equals then .error (.complaint (.argumentIgnored next value))
          else do
            let (more, strays) ← letters next (d :: value)
            return (next :: more, strays)
        | [] => .ok ([next], [])

/-- A switch with what is attached to it takes effect, unless it needs a further argument. -/
def switch (r : Reading) (s : Switch) : Attached → Except Stop Reading
  | .nothing => r.flag s
  | .assigned t =>
    if s.takesArgument then r.limit s t else .error (.complaint (.argumentIgnored s t))
  | .letters t => do
    let (more, strays) ← letters s t
    (s :: more).foldlM flag { r with strays := r.strays ++ strays }

def finish (r : Reading) : Except Stop Settings :=
  if r.strays.isEmpty then .ok r.settings else .error (.complaint (.unrecognized r.strays))

def run (r : Reading) : List Argument → Except Stop Settings
  | [] => r.finish
  | .plain t :: rest => run (r.plain t) rest
  | .terminator :: rest => run r.terminator rest
  | .unknown t :: rest => run (r.leaveFiles.stray t) rest
  | .switch s attached :: rest =>
    if s.takesArgument ∧ attached = .nothing then
      match rest with
      | .plain t :: rest => do run (← r.leaveFiles.limit s t) rest
      | _ => .error (.complaint (.argumentExpected s))
    else do run (← r.leaveFiles.switch s attached) rest

end Reading

def readArguments (arguments : List Text) : Except Stop Settings :=
  match Argument.ofTexts arguments with
  | .error c => .error (.complaint c)
  | .ok as => ({} : Reading).run as

end ModuleScript.Console
