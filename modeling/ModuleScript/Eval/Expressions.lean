import ModuleScript.Eval.Bindings
import ModuleScript.Eval.Call

/-!
# Expressions

What each kind of expression does. Operands and elements are evaluated from left to right;
conjunction, disjunction, conditions and matches evaluate only what they need.
-/

set_option autoImplicit false

namespace ModuleScript.Eval

def boolOperand (op : BinaryOp) (v : Value) : Eval Bool :=
  match v with
  | .bool b => pure b
  | v => because (.boolExpected op.text v.typeName)

/-- Conjunction or disjunction: the second operand counts only if the first is not `decisive`. -/
def shortCircuit (self : Step) (c : Context) (op : BinaryOp) (decisive : Bool) (a b : Expr) :
    Eval Value := do
  let left ← boolOperand op (← self.expr c a)
  if left = decisive then return .bool left
  else return .bool (← boolOperand op (← self.expr c b))

def binary (self : Step) (c : Context) (op : BinaryOp) (a b : Expr) : Eval Value :=
  match op with
  | .and => shortCircuit self c op false a b
  | .or => shortCircuit self c op true a b
  | op => do
    let left ← self.expr c a
    let right ← self.expr c b
    self.ask (.binary op left.shape right.shape)
    lift (Value.binary op left right)

/-- One element of a comprehension, unless the condition fails. -/
def comprehend (self : Step) (c : Context) (element : Expr) (binder : Ident)
    (condition : Option Expr) (item : Value) : Eval (Option Value) := do
  let inner ← c.enter { name := "comprehension", bindings := [(binder, .value item)] }
  match condition with
  | none => return some (← self.expr inner element)
  | some test =>
    if ← isTruthy (← self.expr inner test) then return some (← self.expr inner element)
    else return none

def selectArm (self : Step) (c : Context) (subject : Value) : List Arm → Eval Value
  | [] => do
    self.ask (.noArm subject.shape)
    let shown ← lift (Failure.lift subject.nested)
    because (.noArm shown)
  | .mk _ binder guard body :: rest => do
    let inner ← c.enter { name := "match", bindings := [(binder, .value subject)] }
    match guard with
    | none => self.expr inner body
    | some test =>
      if ← isTruthy (← self.expr inner test) then self.expr inner body
      else selectArm self c subject rest

def expr (self : Step) (c : Context) : Expr → Eval Value
  | .constant _ k => pure (Value.ofConstant k)
  | .unit _ => pure .unit
  | .name _ n => do
    let (_, v) ← resolve c n
    return v
  | .dotted _ names => dotted c names
  | .list _ elements => do return Value.ofItems (← self.exprs c elements)
  | .range _ first stop => do
    let low ← self.expr c first
    let high ← self.expr c stop
    self.ask (.range low.shape high.shape)
    lift (Value.numberRange low high)
  | .comprehension _ element binder iterable condition => do
    let v ← self.expr c iterable
    match v.items? with
    | none => because (.cannotIterate v.typeName)
    | some items =>
      return Value.ofItems (← items.filterMapM (comprehend self c element binder condition))
  | .unary _ op operand => do
    let v ← self.expr c operand
    self.ask (.unary op v.shape)
    lift (Value.unary op v)
  | .binary _ op left right => binary self c op left right
  | .binding _ name initializer => do
    let v ← self.expr c initializer
    define c name v false
    return v
  | .lambda _ name params body => newClosure name [variantHere c params body]
  | .call _ callee arguments => do
    let f ← self.expr c callee
    let args ← self.exprs c arguments
    applyValue self c.site f args
  | .cond _ condition yes no => do
    if ← isTruthy (← self.expr c condition) then self.expr c yes else self.expr c no
  | .select _ subject arms => do selectArm self c (← self.expr c subject) arms
  | .block _ statements => do self.stmts (← c.enter { name := "block" }) statements
  | .sequence _ elements => do
    self.stmts (← c.enter { name := "seq" }) (elements.map .expr)

end ModuleScript.Eval
