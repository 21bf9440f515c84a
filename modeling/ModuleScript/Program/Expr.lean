import ModuleScript.Number.Basic
import ModuleScript.Program.Location
import ModuleScript.Program.Operator

/-!
# Expressions and statements

The tree of a program. Every node carries the location of the token that it is named after, so code
that runs far from its file still knows where it stands.
-/

set_option autoImplicit false

namespace ModuleScript

inductive Constant where
  | number (n : Number)
  | string (t : Text)
  | char (c : CodePoint)
  | bool (b : Bool)
  deriving DecidableEq, Repr

mutual

inductive Expr where
  | constant (l : Location) (c : Constant)
  | unit (l : Location)
  | name (l : Location) (n : Ident)
  | dotted (l : Location) (names : List Ident)
  | list (l : Location) (elements : List Expr)
  /-- The integers from a start up to, not including, an end. -/
  | range (l : Location) (first stop : Expr)
  | comprehension (l : Location) (element : Expr) (binder : Ident) (iterable : Expr)
      (condition : Option Expr)
  | unary (l : Location) (op : UnaryOp) (operand : Expr)
  | binary (l : Location) (op : BinaryOp) (left right : Expr)
  /-- Binds a name in the running frame; the value is that of the initializer. -/
  | binding (l : Location) (name : Ident) (initializer : Expr)
  | lambda (l : Location) (name : Option Ident) (params : List Ident) (body : Expr)
  | call (l : Location) (callee : Expr) (arguments : List Expr)
  | cond (l : Location) (condition yes no : Expr)
  | select (l : Location) (subject : Expr) (arms : List Arm)
  | block (l : Location) (statements : List Stmt)
  /-- Elements evaluated in order in one frame of their own. -/
  | sequence (l : Location) (elements : List Expr)

/-- One arm of a match: a name for the subject, a guard, and the result. -/
inductive Arm where
  | mk (l : Location) (binder : Ident) (guard : Option Expr) (body : Expr)

inductive Stmt where
  | expr (e : Expr)
  | publicBinding (l : Location) (name : Ident) (initializer : Expr)
  /-- One more arity for an existing function. -/
  | variation (l : Location) (name : Ident) (functionLocation : Location) (params : List Ident)
      (body : Expr)
  | module (l : Location) (isPublic : Bool) (name : Ident) (body : List Stmt)
  | imports (l : Location) (names : List Ident) (path : Text)

end

abbrev Program := List Stmt

/-- The kinds of nodes. -/
inductive Construct where
  | constant
  | unit
  | name
  | dotted
  | list
  | range
  | comprehension
  | unary
  | binary
  | binding
  | lambda
  | call
  | cond
  | select
  | block
  | sequence
  | variation
  | module
  | imports
  deriving DecidableEq, Repr

namespace Expr

def construct : Expr → Construct
  | constant _ _ => .constant
  | unit _ => .unit
  | name _ _ => .name
  | dotted _ _ => .dotted
  | list _ _ => .list
  | range _ _ _ => .range
  | comprehension _ _ _ _ _ => .comprehension
  | unary _ _ _ => .unary
  | binary _ _ _ _ => .binary
  | binding _ _ _ => .binding
  | lambda _ _ _ _ => .lambda
  | call _ _ _ => .call
  | cond _ _ _ _ => .cond
  | select _ _ _ => .select
  | block _ _ => .block
  | sequence _ _ => .sequence

def location : Expr → Location
  | constant l _ | unit l | name l _ | dotted l _ | list l _ | range l _ _
  | comprehension l _ _ _ _ | unary l _ _ | binary l _ _ _ | binding l _ _ | lambda l _ _ _
  | call l _ _ | cond l _ _ _ | select l _ _ | block l _ | sequence l _ => l

/-- A lambda without a name takes the name it is bound to; all else stays as it is. -/
def named (n : Ident) : Expr → Expr
  | lambda l none params body => lambda l (some n) params body
  | e => e

/-- Applies an expression to arguments: the name `seq` before a list literal makes a sequence. -/
def applied (callee : Expr) (arguments : List Expr) : Expr :=
  match callee, arguments with
  | .name l n, [.list _ elements] =>
    if n = "seq" then .sequence l elements else .call l callee arguments
  | _, _ => .call callee.location callee arguments

end Expr

namespace Stmt

def construct : Stmt → Construct
  | expr e => e.construct
  | publicBinding _ _ _ => .binding
  | variation _ _ _ _ _ => .variation
  | module _ _ _ _ => .module
  | imports _ _ _ => .imports

def location : Stmt → Location
  | expr e => e.location
  | publicBinding l _ _ | variation l _ _ _ _ | module l _ _ _ | imports l _ _ => l

/-- A public binding or a module, neither of which a block may hold. -/
def isDeclaration : Stmt → Bool
  | publicBinding _ _ _ | module _ _ _ _ => true
  | _ => false

end Stmt

end ModuleScript
