import ModuleScript.Text.Basic

/-!
# Operators

The binary operators with their levels, and the operators in front of an operand, which bind more
tightly than any binary operator.
-/

set_option autoImplicit false

namespace ModuleScript

inductive BinaryOp where
  | or
  | and
  | equal
  | notEqual
  | less
  | greater
  | add
  | subtract
  | multiply
  | divide
  | modulo
  deriving DecidableEq, Repr

namespace BinaryOp

/-- An operator of a higher level binds more tightly; all levels associate to the left. -/
def level : BinaryOp → Nat
  | or => 1
  | and => 2
  | equal | notEqual | less | greater => 3
  | add | subtract => 4
  | multiply | divide | modulo => 5

def text : BinaryOp → Text
  | or => "||"
  | and => "&&"
  | equal => "=="
  | notEqual => "!="
  | less => "<"
  | greater => ">"
  | add => "+"
  | subtract => "-"
  | multiply => "*"
  | divide => "/"
  | modulo => "%"

end BinaryOp

inductive UnaryOp where
  | negate
  | head
  | tail
  deriving DecidableEq, Repr

def UnaryOp.text : UnaryOp → Text
  | negate => "-"
  | head => "^"
  | tail => "$"

end ModuleScript
