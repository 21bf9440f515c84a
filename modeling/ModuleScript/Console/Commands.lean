import ModuleScript.Console.Arguments
import ModuleScript.Session

/-!
# Commands

The three things that the command line can do: run files, each in a session of its own; check files
without running them; and answer input line by line in one session. A command is a function of the
disk and the input to what it leaves behind.
-/

set_option autoImplicit false

namespace ModuleScript.Console

structure Outcome where
  /-- The exit code, unless a failure that is not told ends the command. -/
  result : Except Failure Nat
  output : Text
  /-- What is told on the other stream, which takes every text. -/
  errors : Text := []
  /-- The input that has not been read. -/
  input : Text

namespace Outcome

def after (o : Outcome) (output : Text) : Outcome := { o with output := output ++ o.output }

/-- The exit code, unless there is a fault. -/
def ending (o : Outcome) : Except Fault Nat :=
  match o.result with
  | .ok code => .ok code
  | .error (.fault f) => .error f
  | .error _ => .ok 1

end Outcome

/-- A text with a line end, if output takes it. -/
def printed (h : Host) (t : Text) : Except Failure Text :=
  (Failure.lift (h.checkOutput t)).map fun _ => t ++ "\n"

def unreadable (file : Text) (trouble : FileTrouble) : Text :=
  "Cannot read " ++ file ++ ": " ++ trouble.reason

/-- What is told about a file that fails. Faults other than those of the file system are not told. -/
def complaintOn (file : Text) : Failure → Except Failure Text
  | .report r => .ok r.render
  | .fault (.file trouble _) => .ok (unreadable file trouble)
  | f => .error f

/-! ## Running files -/

def runFiles (h : Host) (input : Text) : List Text → Outcome
  | [] => ⟨.ok 0, [], [], input⟩
  | file :: rest =>
    let (result, s) := (Session.start h input).perform (Session.evalFile · file)
    let output := s.machine.output
    match result with
    | .ok _ => (runFiles h s.machine.input rest).after output
    | .error f =>
      match complaintOn file f with
      | .ok t => ⟨.ok 1, output, t ++ "\n", s.machine.input⟩
      | .error f => ⟨.error f, output, [], s.machine.input⟩

/-! ## Checking files -/

/-- What a check of a file finds: nothing, or something to tell. -/
def check (h : Host) (file : Text) : Except Failure (Option Text) :=
  let program := do
    let source ← Failure.lift (h.disk.readText (Path.ofText file))
    h.read file source
  match program with
  | .ok _ => .ok none
  | .error f => (complaintOn file f).map some

/-- What is told about a file that has been checked. -/
def verdict (file : Text) (finding : Option Text) : Text := finding.getD (file ++ ": ok")

/-- Checks files, tells what it finds, and counts the files with errors. -/
def checkAll (h : Host) : List Text → Except Failure Nat × Text
  | [] => (.ok 0, [])
  | file :: rest =>
    let told := do
      let finding ← check h file
      let line ← printed h (verdict file finding)
      return (finding.isSome, line)
    match told with
    | .error f => (.error f, [])
    | .ok (isWrong, line) =>
      let (wrong, output) := checkAll h rest
      (wrong.map fun n => if isWrong then n + 1 else n, line ++ output)

def lintFiles (h : Host) (input : Text) (files : List Text) : Outcome :=
  let (wrong, output) := checkAll h files
  match wrong with
  | .error f => ⟨.error f, output, [], input⟩
  | .ok n =>
    let summary := "Checked " ++ Decimal.ofNat files.length ++ " file(s), " ++ Decimal.ofNat n ++
      " with errors\n"
    ⟨.ok (if n = 0 then 0 else 1), output ++ summary, [], input⟩

/-! ## Answering lines -/

/-- The text of a value, for which there are the levels outside evaluation only. -/
def echo (h : Host) (v : Value) : Except Failure Text :=
  if h.ownDepth < h.platform.echo v.shape then .error .tooDeep else Failure.lift v.nested

/-- What is told about a line: its value, unless it is the unit, or the report of what is wrong. -/
def reply (h : Host) : Except Failure Value → Except Failure Text
  | .ok .unit => .ok []
  | .ok v => do printed h (← echo h v)
  | .error (.report r) => printed h r.render
  | .error f => .error f

/-- Evaluates a line and tells what comes of it. -/
def answer (s : Session) (line : Text) : Except Failure Unit × Session :=
  let (result, s) := s.perform (Session.evalSource · "<repl>" line)
  match reply s.host result with
  | .ok t => (.ok (), { s with machine := s.machine.write t })
  | .error f => (.error f, s)

/-- Answers lines until the input ends. Every round takes at least one code point of input, so there
are no more rounds than code points, and one to meet the end. -/
def rounds : Nat → Session → Except Failure Unit × Session
  | 0, s => (.ok (), s)
  | n + 1, s =>
    let m := s.machine.write "> "
    match Text.splitLine m.input with
    | ([], _) => (.ok (), { s with machine := m.write "\n" })
    | (line, rest) =>
      let s := { s with machine := { m with input := rest } }
      if line.all CodePoint.isBlank then rounds n s
      else
        match answer s line with
        | (.ok (), s) => rounds n s
        | (.error f, s) => (.error f, s)

def interact (h : Host) (input : Text) : Outcome :=
  let (result, s) := rounds (input.length + 1) (Session.start h input)
  ⟨result.map fun _ => 0, s.machine.output, [], s.machine.input⟩

/-! ## The command line -/

def execute [Platform] (disk : Disk) (arguments : List Text) (input : Text) : Outcome :=
  let refuse (c : Complaint) : Outcome := ⟨.ok 2, [], c.text, input⟩
  match readArguments arguments with
  | .error .help => ⟨.ok 0, help, [], input⟩
  | .error .version => ⟨.ok 0, version, [], input⟩
  | .error (.complaint c) => refuse c
  | .ok s =>
    let h : Host := ⟨disk, s.recursionLimit, true⟩
    if s.lint then
      if s.files.isEmpty then refuse .filesNeeded else lintFiles h input s.files
    else if s.repl then interact h input
    else if s.files.isEmpty then ⟨.ok 2, help, [], input⟩
    else runFiles h input s.files

end ModuleScript.Console
