import ModuleScript.Report.Cause
import ModuleScript.Value.Display

/-!
# Operators on values

What each operator means on each kind of value. An operator that is not defined for its operands is
an error without a place; the place is known to whoever evaluates the expression.
-/

set_option autoImplicit false

namespace ModuleScript

def Failure.because {α : Type} (c : Cause) : Except Failure α := .error (.report c.report)

/-- Stops where a conversion does. -/
def Failure.lift {α : Type} (r : Except Fault α) : Except Failure α := r.mapError .fault

namespace Value

def undefined {α : Type} (op : BinaryOp) (a b : Value) : Except Failure α :=
  Failure.because (.undefinedOperator op.text [a.typeName, b.typeName])

def shiftChar (c : CodePoint) (offset : Int) : Except Failure Value :=
  let code : Int := c.val + offset
  if h : 0 ≤ code ∧ code < 0x110000 then .ok (char ⟨code.toNat, by omega⟩)
  else do
    let shown ← Failure.lift (Decimal.ofInt? code)
    Failure.because (.charOutOfRange shown)

def concat (a b : Value) : Except Failure Value :=
  Failure.lift do
    let s ← a.display
    let t ← b.display
    return text (s ++ t)

def add : Value → Value → Except Failure Value
  | number a, number b => Failure.lift ((a.add b).map number)
  | text s, b => concat (text s) b
  | a, text t => concat a (text t)
  | char c, number (.int i) => shiftChar c i
  | list as, list bs => .ok (ofItems (as ++ bs))
  | a, b => undefined .add a b

def subtract : Value → Value → Except Failure Value
  | number a, number b => Failure.lift ((a.sub b).map number)
  | char c, number (.int i) => shiftChar c (-i)
  | a, b => undefined .subtract a b

def multiply : Value → Value → Except Failure Value
  | number a, number b => Failure.lift ((a.mul b).map number)
  | a, b => undefined .multiply a b

def divide : Value → Value → Except Failure Value
  | number a, number b =>
    if b.isZero then Failure.because .divisionByZero else Failure.lift ((a.div b).map number)
  | a, b => undefined .divide a b

/-- What the quotient leaves of the dividend. -/
def modulo : Value → Value → Except Failure Value
  | number (.int i), number (.int j) =>
    if j = 0 then Failure.because .moduloByZero else .ok (int (i - j * Number.quotient i j))
  | a, b => undefined .modulo a b

/-- Whether one number, char or text comes before another of its kind. -/
def before? : Value → Value → Option Bool
  | number a, number b => some (a.less b)
  | char a, char b => some (a.val < b.val)
  | text a, text b => some (Text.less a b)
  | _, _ => none

def lessThan (a b : Value) : Except Failure Value :=
  match before? a b with
  | some r => .ok (bool r)
  | none => undefined .less a b

def greaterThan (a b : Value) : Except Failure Value :=
  match before? b a with
  | some r => .ok (bool r)
  | none => undefined .greater a b

def negate : Value → Except Failure Value
  | number n => .ok (number n.neg)
  | bool b => .ok (bool !b)
  | v => Failure.because (.cannotNegate v.typeName)

def head (v : Value) : Except Failure Value :=
  match v.items? with
  | some (item :: _) => .ok item
  | some [] => Failure.because .headOfEmpty
  | none => Failure.because (.cannotTakeHead v.typeName)

/-- All elements but the first. What is left of a list stays a list. -/
def tail : Value → Except Failure Value
  | text t => .ok (text (t.drop 1))
  | list items => .ok (list (items.drop 1))
  | v => Failure.because (.cannotTakeTail v.typeName)

def truthy : Value → Except Failure Bool
  | bool b => .ok b
  | text t => .ok !t.isEmpty
  | list items => .ok !items.isEmpty
  | v => Failure.because (.noTruthValue v.typeName)

/-- The operators that evaluate both operands. Conjunction and disjunction do not, and are not
meant to come here. -/
def binary (op : BinaryOp) (a b : Value) : Except Failure Value :=
  match op with
  | .add => a.add b
  | .subtract => a.subtract b
  | .multiply => a.multiply b
  | .divide => a.divide b
  | .modulo => a.modulo b
  | .less => a.lessThan b
  | .greater => a.greaterThan b
  | .equal => .ok (bool (a.same b))
  | .notEqual => .ok (bool !a.same b)
  | .and | .or => undefined op a b

def unary (op : UnaryOp) (v : Value) : Except Failure Value :=
  match op with
  | .negate => v.negate
  | .head => v.head
  | .tail => v.tail

end Value

end ModuleScript
