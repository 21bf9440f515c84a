import ModuleScript.Eval.Expressions
import ModuleScript.Eval.Files
import ModuleScript.Eval.Modules

/-!
# Running tasks

The knot that ties the steps together. A task with no level left fails; any other performs its step
with one level less for the tasks it leads to, which may have to wait further down. Every node that is
evaluated places the reports that come out of it and have no place yet.
-/

set_option autoImplicit false

namespace ModuleScript.Eval

def stmt (h : Host) (self : Step) (c : Context) : Stmt → Eval Value
  | .expr e => expr self c e
  | .publicBinding _ name initializer => do
    let v ← self.expr c initializer
    define c name v true
    return v
  | .variation _ name _ params body => vary c name (variantHere c params body)
  | .module _ isPublic name body => declareModule self c isPublic name body
  | .imports _ names path => imports h self c names path

def step (h : Host) (self : Step) (t : Task) : Eval Value :=
  match t with
  | .eval c s => located h s.location (stmt h (self.below h t.work) c s)
  | .apply site f args => applyValue (self.below h t.work) site f args
  | .ask d => do
    lift (h.grants d)
    return .unit
  | .wait t => self t

/-- Performs a task with so many levels. -/
def run (h : Host) : Nat → Step
  | 0 => fun _ => throw .tooDeep
  | depth + 1 => step h (run h depth)

end ModuleScript.Eval
