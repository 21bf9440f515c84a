import ModuleScript.Eval.Levels
import ModuleScript.Files.Disk
import ModuleScript.Program.Reader
import ModuleScript.Store.Machine

/-!
# Evaluation

Evaluation changes the machine and yields a value or fails; what it did before it failed stays done.
It is described step by step: a step performs one task and hands the tasks it leads to to another
step, so that only the knot that ties the steps together counts the levels. A task that lies several
levels further down waits until they are counted; an operation that takes levels of its own, or writes,
asks for that first.
-/

set_option autoImplicit false

namespace ModuleScript

/-- What a run depends on and does not change. -/
structure Host where
  disk : Disk
  recursionLimit : Int
  hasPrelude : Bool
  [platform : Platform]

namespace Host

def excerptAt (h : Host) (l : Location) : Option Text :=
  h.disk.excerpt? l.file l.line Excerpt.radius

/-- Adds the excerpt to a report that has a location. -/
def addExcerpt (h : Host) : Failure → Failure
  | .report r => .report { r with context := r.location.bind h.excerptAt }
  | f => f

/-- The program of a source; reports show the source around the place at fault. -/
def read (h : Host) (file source : Text) : Except Failure Program :=
  (readProgram file source).mapError h.addExcerpt

/-- Output that is strict refuses a text that holds a surrogate. -/
def checkOutput (h : Host) (t : Text) : Except Fault Unit :=
  match t.surrogates? fun _ => !h.platform.isStrict with
  | some (row, place) => .error (.surrogates row place)
  | none => .ok ()

/-- What a demand comes to when there are enough levels. -/
def grants (h : Host) : Demand → Except Failure Unit
  | .write t => Failure.lift (h.checkOutput t)
  | _ => .ok ()

end Host

abbrev Eval := EStateM Failure Machine

namespace Eval

variable {α : Type}

def because (c : Cause) : Eval α := throw (.report c.report)

def lift : Except Failure α → Eval α
  | .ok a => pure a
  | .error f => throw f

/-- Changes the machine, or fails and leaves it as it is. -/
def change (f : Machine → Except Failure Machine) : Eval Unit := fun m =>
  match f m with
  | .ok m' => .ok () m'
  | .error e => .error e m

/-- Places a report that has no place yet. -/
def located (h : Host) (l : Location) (x : Eval α) : Eval α := fun m =>
  match x m with
  | .error (.report r) m =>
    match r.location with
    | some _ => .error (.report r) m
    | none => .error (.report (r.locate l (h.excerptAt l))) m
  | r => r

/-- Mends the machine when evaluation fails. -/
def mending (x : Eval α) (mend : Machine → Machine) : Eval α := fun m =>
  match x m with
  | .error e m => .error e (mend m)
  | r => r

def newFrame (f : Frame) : Eval FrameId := fun m => .ok m.frames.size (m.pushFrame f)

end Eval

/-- The source being run: its name, its outermost frame of its own, and its table of exports. -/
structure Site where
  source : Text
  globals : FrameId
  exports : ExportsId

/-- Where code runs: under which source, in which scope, and as code of which module. -/
structure Context where
  site : Site
  scope : Scope
  module : Option ModulePath

inductive Task where
  | eval (c : Context) (s : Stmt)
  /-- Applies a value to arguments on behalf of a source. -/
  | apply (site : Site) (callee : Value) (arguments : List Value)
  /-- Makes sure that a demand is met. -/
  | ask (d : Demand)
  /-- Performs a task one level further down. -/
  | wait (t : Task)

namespace Task

/-- A task so many levels further down. -/
def after : Nat → Task → Task
  | 0, t => t
  | n + 1, t => .wait (after n t)

def work : Task → Work
  | eval _ s => .node s.construct s.location
  | apply _ _ arguments => .apply arguments.length
  | ask d => .meet d
  | wait t => t.work

end Task

abbrev Step := Task → Eval Value

/-- Performs the tasks that a piece of work leads to. -/
def Step.below (self : Step) (h : Host) (w : Work) : Step :=
  fun t => self (t.after (h.platform.between w t.work))

def Step.ask (self : Step) (d : Demand) : Eval Unit := do
  let _ ← self (.ask d)

def Step.expr (self : Step) (c : Context) (e : Expr) : Eval Value := self (.eval c (.expr e))

def Step.exprs (self : Step) (c : Context) (es : List Expr) : Eval (List Value) :=
  es.mapM (self.expr c)

/-- Evaluates statements in order; the value is that of the last one. -/
def Step.stmts (self : Step) (c : Context) (ss : List Stmt) : Eval Value :=
  ss.foldlM (fun _ s => self (.eval c s)) .unit

def Context.enter (c : Context) (f : Frame) : Eval Context := do
  let id ← Eval.newFrame f
  return { c with scope := c.scope.push id }

end ModuleScript
