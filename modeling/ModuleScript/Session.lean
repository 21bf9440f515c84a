import ModuleScript.Eval.Run

/-!
# Sessions

A session evaluates sources and files one after another on one machine. Its frames are those of the
natives, of the prelude, and the one in which everything given to the session runs.
-/

set_option autoImplicit false

namespace ModuleScript

/-- Functions written in the language itself that every program can use. -/
def preludeSource : Text :=
  "\nlet sum = fn(ls) => fold(fn(a, b) => a + b, 0, ls)" ++
    ("\nlet product = fn(ls) => fold(fn(a, b) => a * b, 1, ls)" : Text) ++
    ("\nlet has = fn(val) => typeof(val) != \"Unit\"\n" : Text)

/-- The levels outside evaluation. -/
def Host.ownDepth (h : Host) : Nat := h.platform.ownLimit - h.platform.inUse

/-- The levels of evaluation: what the recursion limit leaves of those that are in use where evaluation
begins. A limit below the one outside evaluation changes nothing. -/
def Host.depth (h : Host) : Nat :=
  max h.platform.ownLimit h.recursionLimit.toNat - h.platform.inUse

def Host.runner (h : Host) : Step := Eval.run h h.depth

/-- The largest recursion limit that evaluation can be given. -/
def Host.largestLimit : Int := 2147483647

def Host.tooDeepReport (h : Host) : Report := (Cause.recursionLimit h.recursionLimit).report

structure Session where
  host : Host
  machine : Machine

namespace Session

open Eval

def builtins : Frame :=
  { name := "builtins", bindings := Native.all.map fun n => (n.name, .value (.native n)) }

def blank (input : Text) : Machine :=
  { frames := #[builtins, { name := "prelude" }, { name := "global" }], input := input }

/-- Evaluates a program whose own frame is the given one. -/
def execute (self : Step) (source : Text) (globals : FrameId) (outer : List FrameId)
    (program : Program) : Eval (Value × ExportsId) := do
  let site ← newSite source globals
  let v ← self.stmts (top site outer) program
  return (v, site.exports)

/-- Evaluation that nests too deeply ends with a report of the limit. A limit that a frame counter
cannot hold is a fault before evaluation begins. -/
def guarded {α : Type} (h : Host) (x : Eval α) : Eval α := fun m =>
  if Host.largestLimit < h.recursionLimit then .error (.fault .limitTooLarge) m
  else
    match x m with
    | .error .tooDeep m => .error (.report h.tooDeepReport) m
    | r => r

/-- The prelude is evaluated before the recursion limit is raised. -/
def loadPrelude (h : Host) : Eval Unit := do
  let program ← lift (h.read "<prelude>" preludeSource)
  let _ ← execute (Eval.run h h.ownDepth) "<prelude>" preludeFrame [builtinsFrame] program

def start (h : Host) (input : Text) : Session :=
  let m := blank input
  if h.hasPrelude then
    match loadPrelude h m with
    | .ok _ m | .error _ m => ⟨h, m⟩
  else ⟨h, m⟩

def runProgram (h : Host) (self : Step) (source : Text) (program : Program) :
    Eval (Value × ExportsId) :=
  guarded h (execute self source globalFrame [preludeFrame, builtinsFrame] program)

/-- What a session can be given: a source with the name it goes by, or the path of a file. -/
inductive Command where
  | source (name text : Text)
  | file (name : Text)

/-- Evaluates a source or a file in the session's frame; a file whether it has been loaded before or
not. -/
def Command.perform (h : Host) (self : Step) : Command → Eval Value
  | .source name text => do
    let program ← lift (h.read name text)
    let (v, _) ← runProgram h self name program
    return v
  | .file name => do
    let path := Path.ofText name
    let text ← lift (Failure.lift (h.disk.readText path))
    let resolved := h.disk.directory.resolve path
    change (·.beginLoading resolved)
    let (v, exports) ← mending
      (do
        let program ← lift (h.read path.text text)
        runProgram h self path.text program)
      (·.abortLoading resolved)
    change fun m => m.finishLoading resolved (m.exportsOf exports)
    return v

def evalSource (h : Host) (file source : Text) : Eval Value :=
  (Command.source file source).perform h h.runner

def evalFile (h : Host) (file : Text) : Eval Value := (Command.file file).perform h h.runner

def perform {α : Type} (s : Session) (x : Host → Eval α) : Except Failure α × Session :=
  match x s.host s.machine with
  | .ok a m => (.ok a, { s with machine := m })
  | .error e m => (.error e, { s with machine := m })

/-- What has been written since output was last taken. -/
def takeOutput (s : Session) : Text × Session :=
  (s.machine.output, { s with machine := { s.machine with written := [] } })

end Session

end ModuleScript
