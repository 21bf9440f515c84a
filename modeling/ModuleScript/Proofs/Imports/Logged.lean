import ModuleScript.Proofs.Imports.Graph
import ModuleScript.Proofs.Loading
import ModuleScript.Proofs.Names
import ModuleScript.Session

/-!
# What becomes of files

A logged run is a run that keeps a log meanwhile: which file's body it enters, which statements of
the body it gets past, and when it leaves the body. Without the log it is the run itself.
-/

set_option autoImplicit false

namespace ModuleScript

/-- What becomes of the body of a file. -/
inductive Event where
  | entered (p : Path)
  /-- The statement at a position has been evaluated. -/
  | passed (p : Path) (i : Nat)
  | left (p : Path)
  deriving DecidableEq

def Event.file : Event → Path
  | .entered p | .passed p _ | .left p => p

/-- Evaluation that keeps a log. -/
def Logged (α : Type) : Type := Machine → List Event × EStateM.Result Failure Machine α

namespace Logged

open Eval Session

variable {α β : Type}

/-- Evaluation that logs nothing. -/
def quiet (x : Eval α) : Logged α := fun m => ([], x m)

def note (e : Event) : Logged Unit := fun m => ([e], .ok ⟨⟩ m)

/-- Does to the outcome what is done to that of evaluation. -/
def under (wrap : Eval α → Eval α) (x : Logged α) : Logged α := fun m =>
  ((x m).1, wrap (fun _ => (x m).2) m)

instance : Monad Logged where
  pure a := quiet (pure a)
  bind x f m :=
    match x m with
    | (log, .ok a k) => (log ++ (f a k).1, (f a k).2)
    | (log, .error e k) => (log, .error e k)

section Bind

variable {x : Logged α} {y : Eval α} {f : α → Logged β} {a : α} {m k : Machine} {log : List Event}

theorem bind_ok (h : x m = (log, .ok a k)) : (x >>= f) m = (log ++ (f a k).1, (f a k).2) := by
  change (match x m with
    | (log, .ok a k) => (log ++ (f a k).1, (f a k).2)
    | (log, .error e k) => (log, .error e k)) = _
  rw [h]

theorem bind_error {e : Failure} (h : x m = (log, .error e k)) :
    (x >>= f) m = (log, .error e k) := by
  change (match x m with
    | (log, .ok a k) => (log ++ (f a k).1, (f a k).2)
    | (log, .error e k) => (log, .error e k)) = _
  rw [h]

theorem quiet_bind (h : y m = .ok a k) : (quiet y >>= f) m = f a k := by
  have hq : quiet y m = ([], .ok a k) := by rw [quiet, h]
  exact bind_ok hq

theorem quiet_bind_error {e : Failure} (h : y m = .error e k) :
    (quiet y >>= f) m = ([], .error e k) := by
  have hq : quiet y m = ([], .error e k) := by rw [quiet, h]
  exact bind_error hq

end Bind

/-- Performs the tasks that a piece of work leads to. -/
def below (self : Task → Logged Value) (h : Host) (w : Work) (t : Task) : Logged Value :=
  self (t.after (h.platform.between w t.work))

def ask (self : Task → Logged Value) (d : Demand) : Logged Unit := do
  let _ ← self (.ask d)

/-! ## The functions that load files, with a log -/

/-- Evaluates the body of a file from a position on. -/
def body (self : Task → Logged Value) (c : Context) (p : Path) :
    Nat → Value → List Stmt → Logged Value
  | _, v, [] => pure v
  | i, _, s :: ss => do
    let v ← self (.eval c s)
    note (.passed p i)
    body self c p (i + 1) v ss

def wholeBody (self : Task → Logged Value) (c : Context) (p : Path) (program : Program) :
    Logged Value := do
  note (.entered p)
  let v ← body self c p 0 .unit program
  note (.left p)
  return v

def evaluateFile (h : Host) (self : Task → Logged Value) (path : Path) : Logged Exports := do
  let source ← quiet (lift (Failure.lift (h.disk.readText path)))
  ask self (.read source)
  let program ← quiet (lift (h.read path.text source))
  let site ← quiet (openFile path)
  let _ ← wholeBody self (top site [preludeFrame, builtinsFrame]) path program
  return (← quiet get).exportsOf site.exports

def load (h : Host) (self : Task → Logged Value) (relative importer : Text) : Logged Exports := do
  let path ← quiet (lift (Failure.lift (h.disk.resolveImport relative importer)))
  match (← quiet get).loaded? path with
  | some exports => return exports
  | none =>
    if !(← quiet (lift (Failure.lift (h.disk.isFile path)))) then
      quiet (because (.cannotFind relative path.text))
    quiet (change (·.beginLoading path))
    let exports ← under (mending · (·.abortLoading path)) (evaluateFile h self path)
    quiet (change (·.finishLoading path exports))
    return exports

def imports (h : Host) (self : Task → Logged Value) (c : Context) (names : List Ident)
    (path : Text) : Logged Value := do
  let exports ← load h self path c.site.source
  quiet (bindImports c path exports names)
  return .unit

/-- Performs a task; what a statement that is no import does is not logged. -/
def run (h : Host) : Nat → Task → Logged Value
  | 0, _ => quiet (throw .tooDeep)
  | depth + 1, .eval c (.imports l names path) =>
    under (located h l) (imports h (below (run h depth) h (.node .imports l)) c names path)
  | depth + 1, .wait t => run h depth t
  | depth + 1, t => quiet (step h (Eval.run h depth) t)

def execute (self : Task → Logged Value) (p : Path) (source : Text) (globals : FrameId)
    (outer : List FrameId) (program : Program) : Logged (Value × ExportsId) := do
  let site ← quiet (newSite source globals)
  let v ← wholeBody self (top site outer) p program
  return (v, site.exports)

/-- Evaluates the main file of a program. -/
def perform (P : Project) : Logged Value := do
  let path := Path.ofText P.name
  let text ← quiet (lift (Failure.lift (P.host.disk.readText path)))
  quiet (change (·.beginLoading P.main))
  let (v, exports) ← under (mending · (·.abortLoading P.main))
    (do
      let program ← quiet (lift (P.host.read path.text text))
      under (guarded P.host)
        (execute (run P.host P.host.depth) P.main path.text globalFrame
          [preludeFrame, builtinsFrame] program))
  quiet (change fun m => m.finishLoading P.main (m.exportsOf exports))
  return v

/-! ## The log left out -/

/-- Without the log it is the same evaluation. -/
def Erases (x : Logged α) (y : Eval α) : Prop := ∀ m, (x m).2 = y m

theorem erases_quiet (x : Eval α) : Erases (quiet x) x := fun _ => rfl

theorem erases_pure (a : α) : Erases (pure a) (pure a) := erases_quiet _

theorem Erases.bind {x : Logged α} {y : Eval α} {f : α → Logged β} {g : α → Eval β}
    (hx : Erases x y) (hf : ∀ a, Erases (f a) (g a)) : Erases (x >>= f) (y >>= g) := by
  intro m
  have hm := hx m
  rcases hr : x m with ⟨log, r⟩
  rw [hr] at hm
  cases r with
  | ok a k => rw [bind_ok hr, bind_of_ok hm.symm, ← hf a k]
  | error e k => rw [bind_error hr, bind_of_error hm.symm]

theorem Erases.note_bind {e : Event} {f : Unit → Logged β} {y : Eval β} (hf : Erases (f ⟨⟩) y) :
    Erases (note e >>= f) y :=
  fun m => hf m

theorem Erases.under {x : Logged α} {y : Eval α} {wrap : Eval α → Eval α} (hx : Erases x y)
    (hwrap : ∀ m, wrap (fun _ => y m) m = wrap y m) : Erases (Logged.under wrap x) (wrap y) := by
  intro m
  rw [← hwrap, ← hx m]
  rfl

section Run

variable {h : Host} {self : Task → Logged Value} {next : Step}
  (hself : ∀ t, Erases (self t) (next t))

include hself

theorem erases_body (c : Context) (p : Path) (ss : List Stmt) (i : Nat) (v : Value) :
    Erases (body self c p i v ss) (ss.foldlM (fun _ s => next (.eval c s)) v) := by
  induction ss generalizing i v with
  | nil => exact erases_pure v
  | cons s ss ih => exact (hself _).bind fun u => Erases.note_bind (ih (i + 1) u)

theorem erases_wholeBody (c : Context) (p : Path) (program : Program) :
    Erases (wholeBody self c p program) (next.stmts c program) := by
  have hbody : Erases (body self c p 0 .unit program) (next.stmts c program) :=
    erases_body hself c p program 0 .unit
  have hend : ∀ v, Erases (note (.left p) >>= fun _ => (pure v : Logged Value)) (pure v) :=
    fun v => Erases.note_bind (erases_pure v)
  have hall := hbody.bind hend
  rw [bind_pure] at hall
  exact Erases.note_bind hall

theorem erases_ask (d : Demand) : Erases (ask self d) (next.ask d) :=
  (hself (.ask d)).bind fun _ => erases_pure _

theorem erases_evaluateFile (p : Path) :
    Erases (evaluateFile h self p) (Eval.evaluateFile h next p) := by
  refine (erases_quiet _).bind fun source => ?_
  refine (erases_ask hself _).bind fun _ => (erases_quiet _).bind fun program => ?_
  refine (erases_quiet _).bind fun site => (erases_wholeBody hself _ p program).bind fun _ => ?_
  exact (erases_quiet _).bind fun m => erases_pure _

theorem erases_load (relative importer : Text) :
    Erases (load h self relative importer) (Eval.load h next relative importer) := by
  refine (erases_quiet _).bind fun path => (erases_quiet _).bind fun m => ?_
  cases m.loaded? path with
  | some exports => exact erases_pure exports
  | none =>
    refine (erases_quiet _).bind fun found => ?_
    have hrest : Erases
        (do
          quiet (change (·.beginLoading path))
          let exports ← under (mending · (·.abortLoading path)) (evaluateFile h self path)
          quiet (change (·.finishLoading path exports))
          return exports)
        (loadFresh h next path) := by
      refine (erases_quiet _).bind fun _ => ?_
      refine ((erases_evaluateFile hself path).under fun m => rfl).bind fun exports => ?_
      exact (erases_quiet _).bind fun _ => erases_pure _
    cases found with
    | true => exact hrest
    | false => exact (erases_quiet _).bind fun _ => hrest

theorem erases_imports (c : Context) (names : List Ident) (path : Text) :
    Erases (imports h self c names path) (Eval.imports h next c names path) := by
  refine (erases_load hself _ _).bind fun exports => ?_
  exact (erases_quiet _).bind fun _ => erases_pure _

end Run

theorem erases_run (h : Host) (depth : Nat) (t : Task) :
    Erases (run h depth t) (Eval.run h depth t) := by
  induction depth generalizing t with
  | zero => exact erases_quiet _
  | succ depth ih =>
    cases t with
    | apply | ask => exact erases_quiet _
    | wait t => exact ih t
    | eval c s =>
      cases s with
      | imports l names path =>
        have hbelow : ∀ t, Erases (below (run h depth) h (.node .imports l) t)
            ((Eval.run h depth).below h (.node .imports l) t) := fun t => ih _
        have himports := erases_imports (h := h) hbelow c names path
        have hlocated : ∀ m, located h l (fun _ => Eval.imports h
            ((Eval.run h depth).below h (.node .imports l)) c names path m) m =
              located h l (Eval.imports h ((Eval.run h depth).below h (.node .imports l)) c names path)
                m := fun _ => rfl
        exact himports.under hlocated
      | _ => exact erases_quiet _

/-- What an import leads to is performed with the levels that are left. -/
theorem below_run (h : Host) (depth : Nat) (w : Work) :
    ∀ t, below (run h depth) h w t = run h (depth - h.platform.between w t.work) t :=
  fun t => after_of_wait (fun _ => rfl) (fun _ _ => rfl) depth _ t

/-- Whether a demand is met is not logged. -/
theorem ask_run (h : Host) (depth : Nat) (d : Demand) :
    ask (run h depth) d = quiet ((Eval.run h depth).ask d) := by
  have hrun : run h depth (.ask d) = quiet (Eval.run h depth (.ask d)) := by cases depth <;> rfl
  funext m
  unfold ask Step.ask
  rw [hrun]
  cases hr : Eval.run h depth (.ask d) m with
  | ok v k => rw [quiet_bind hr, quiet, bind_of_ok hr]; rfl
  | error e k => rw [quiet_bind_error hr, quiet, bind_of_error hr]

/-- The logged run of the main file is the run of the main file. -/
theorem erases_perform (P : Project) :
    Erases (perform P) ((Command.file P.name).perform P.host P.host.runner) := by
  refine (erases_quiet _).bind fun text => (erases_quiet _).bind fun _ => ?_
  refine Erases.bind (Erases.under ((erases_quiet _).bind fun program => ?_) fun m => rfl)
    fun r => (erases_quiet _).bind fun _ => erases_pure _
  refine Erases.under ((erases_quiet _).bind fun site => ?_) fun m => rfl
  exact (erases_wholeBody (erases_run P.host P.host.depth) _ _ program).bind fun _ => erases_pure _

end Logged

end ModuleScript
