import ModuleScript.Program.Expr
import ModuleScript.Value.Shape

/-!
# Levels

The recursion limit counts levels. Every piece of work takes one, and lies some levels below the work
that leads to it: more below a list literal than below a conditional, and the more below an operation on
lists the deeper these are nested. How many there are, and what else holds outside the language, is a
matter of the platform. Nothing that evaluation does depends on it, but for where it is cut short.
-/

set_option autoImplicit false

namespace ModuleScript

/-- What has to be at hand before evaluation goes on: levels for an operation on values, or the writing
of a text. -/
inductive Demand where
  | unary (op : UnaryOp) (operand : Shape)
  | binary (op : BinaryOp) (left right : Shape)
  | range (first stop : Shape)
  | native (n : Native) (arguments : List Shape)
  /-- A match has no arm for the subject. -/
  | noArm (subject : Shape)
  | read (source : Text)
  | write (t : Text)

inductive Work where
  | node (kind : Construct) (location : Location)
  /-- A value is applied by a native. -/
  | apply (arguments : Nat)
  | meet (d : Demand)

class Platform where
  /-- The levels between a piece of work and one that it leads to. -/
  between : Work → Work → Nat
  /-- What a module or a binding leads to is as far below wherever the two stand. -/
  uniform : ∀ kind, kind = .module ∨ kind = .binding → ∀ kind' a b l l',
    between (.node kind a) (.node kind' l) = between (.node kind b) (.node kind' l')
  /-- The levels that the nested text of a value takes outside evaluation. -/
  echo : Shape → Nat
  /-- The limit outside evaluation; evaluation is never given a smaller one. -/
  ownLimit : Nat
  /-- The levels in use where evaluation begins. -/
  inUse : Nat
  /-- Whether output refuses texts that cannot be encoded. -/
  isStrict : Bool

/-! ## The usual platform -/

mutual

/-- How deep lists are nested in a shape. -/
def Shape.nesting : Shape → Nat
  | .leaf _ _ => 0
  | .list items => 1 + nestingOf items

def Shape.nestingOf : List Shape → Nat
  | [] => 0
  | s :: ss => max s.nesting (nestingOf ss)

end

def Shape.isText : Shape → Bool
  | .leaf kind _ => kind = "Str"
  | .list _ => false

namespace Demand

/-- The levels that the text of the value takes that is nested deepest. -/
def display (ss : List Shape) : Nat := 3 * Shape.nestingOf ss + 4

/-- To compare two lists goes as deep as the one that is nested less. -/
def comparison (a b : Shape) : Nat := 4 * min a.nesting b.nesting + 6

/-- The levels that an operation takes itself. -/
def levels : Demand → Nat
  | .unary _ _ => 2
  | .binary .equal a b | .binary .notEqual a b => comparison a b
  | .binary .add a b => if a.isText || b.isText then 2 + display [a, b] else 4
  | .binary _ _ _ => 4
  | .range a b => 2 + display [a, b]
  | .native .print ss | .native .println ss | .native .input ss | .native .range ss
  | .native .substr ss => 2 + display ss
  | .native _ _ => 4
  | .noArm s => display [s]
  | .read _ => 12
  | .write _ => 3

end Demand

namespace Work

/-- The levels between a node and what it leads to. -/
def below : Construct → Nat
  | .list | .imports => 3
  | .call => 2
  | _ => 1

/-- The levels between an application and one that it leads to: one element after the other is taken
from a list that is being made, unless there are two arguments, as in a fold. -/
def callback (arguments : Nat) : Nat := if arguments = 1 then 3 else 1

/-- The levels between two pieces of work. -/
def between : Work → Work → Nat
  | .node kind _, .node _ _ => below kind
  | .node kind _, .apply n => below kind + callback n
  | .node kind _, .meet d => below kind + d.levels
  | .apply _, .node _ _ => 0
  | .apply _, .apply n => callback n
  | .apply _, .meet d => d.levels
  | .meet _, _ => 0

end Work

/-- The usual way to count, with 1000 levels outside evaluation. -/
@[reducible]
def Platform.usual (isStrict : Bool) : Platform where
  between := Work.between
  uniform _ _ _ _ _ _ _ := rfl
  echo s := Demand.display [s]
  ownLimit := 1000
  inUse := 10
  isStrict := isStrict

instance : Platform := .usual false

end ModuleScript
