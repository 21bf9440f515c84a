import ModuleScript.Eval.Basic
import ModuleScript.Text.Lines
import ModuleScript.Value.Natives

/-!
# Calls

A function runs the variant for the number of its arguments, in a new frame inside the scope it was
written in and as code of the module it was written in, but on behalf of the source that calls it.
Natives that take a function apply it to one element after the other.
-/

set_option autoImplicit false

namespace ModuleScript.Eval

/-- The first frame of a call: the parameters bound to the arguments. -/
def callFrame (c : Closure) (v : Variant) (args : List Value) : Frame :=
  { name := c.name.getD "lambda"
    bindings := (v.params.zip args).foldl (fun b (p, a) => b.set p (.value a)) [] }

def applyClosure (self : Step) (site : Site) (c : Closure) (args : List Value) : Eval Value :=
  match c.variant? args.length with
  | some v => do
    let inner ← Context.enter ⟨site, v.scope, v.module⟩ (callFrame c v args)
    self.expr inner v.body
  | none =>
    let expected := Text.join " or " (c.arities.map Decimal.ofNat)
    because (.arity (c.name.getD "Function") expected args.length)

def shown (args : List Value) : Except Failure Text :=
  Failure.lift ((args.mapM Value.display).map (Text.join " "))

def write (t : Text) : Eval Unit := modify (·.write t)

/-- Writes a text if output takes it. -/
def output (self : Step) (t : Text) : Eval Unit := do
  self.ask (.write t)
  write t

/-- The next line of input without its end, or the unit at the end of input. -/
def readLine : Eval Value := fun m =>
  let (line, rest) := Text.splitLine m.input
  let ends (c : CodePoint) : Bool := c == '\r' || c == '\n'
  let v : Value := if line.isEmpty then .unit else .text (Text.dropEndWhile ends line)
  .ok v { m with input := rest }

def isTruthy (v : Value) : Eval Bool := lift v.truthy

/-- What a native does when it has the levels it takes itself. -/
def performNative (self : Step) (site : Site) (n : Native) (args : List Value) : Eval Value :=
  match n, args with
  | .print, args => do
    output self (← lift (shown args))
    return .unit
  | .println, args => do
    output self ((← lift (shown args)) ++ [CodePoint.newline])
    return .unit
  | .input, [prompt] => do
    output self (← lift (Failure.lift prompt.display))
    readLine
  | .fmap, [f, xs] => do
    let items ← lift (xs.expectItems .fmap)
    return Value.ofItems (← items.mapM fun x => self (.apply site f [x]))
  | .filter, [f, xs] => do
    let items ← lift (xs.expectItems .filter)
    return Value.ofItems (← items.filterM fun x => do isTruthy (← self (.apply site f [x])))
  | .fold, [f, start, xs] => do
    let items ← lift (xs.expectItems .fold)
    items.foldlM (fun acc x => self (.apply site f [acc, x])) start
  | n, args =>
    match Value.applyNative? n args with
    | some r => lift r
    | none => because (.arity n.name (Decimal.ofNat (n.arity.getD 0)) args.length)

def applyNative (self : Step) (site : Site) (n : Native) (args : List Value) : Eval Value := do
  self.ask (.native n (Value.shapes args))
  performNative self site n args

def applyValue (self : Step) (site : Site) (f : Value) (args : List Value) : Eval Value :=
  match f with
  | .native n => applyNative self site n args
  | .closure c => applyClosure self site c args
  | v => because (.notCallable v.typeName)

end ModuleScript.Eval
