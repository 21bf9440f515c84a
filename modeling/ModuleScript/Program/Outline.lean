import ModuleScript.Program.Expr
import ModuleScript.Text.Quoted

/-!
# Outlines

The outline of a program shows its tree in one line. Each node has a full form; a lambda also has a
short form, used where another node holds it by itself and not in a list. Some nodes show nothing
but their class.
-/

set_option autoImplicit false

namespace ModuleScript

namespace Outline

/-- A class with its parts in parentheses. -/
def node (label : Text) (parts : List Text) : Text :=
  label ++ "(" ++ Text.join ", " parts ++ ")"

def bracketed (parts : List Text) : Text := "[" ++ Text.join ", " parts ++ "]"

def bare (label : Text) : Text := "<rustscript.rustscript_ast." ++ label ++ ">"

def number : Number → Text
  | .int i => Decimal.ofInt i
  | .float x => x.text

def constant : Constant → Text
  | .number n => node "Number" ["value=" ++ number n]
  | .string t => node "Str" ["value=" ++ Text.quoted t]
  | .char c => node "Char" ["value=" ++ Text.quoted [c]]
  | .bool b => node "Bool" ["value=" ++ (if b then "True" else "False" : Text)]

mutual

def full : Expr → Text
  | .constant _ c => node "Literal" [constant c]
  | .unit _ => node "UnitLiteral" []
  | .name _ n => node "Identifier" [n]
  | .dotted _ ns => node "QualifiedName" [Text.join "." ns]
  | .list _ es => node "ListLiteral" [bracketed (fulls es)]
  | .range _ _ _ => bare "RangeLiteral"
  | .comprehension _ _ _ _ _ => bare "Comprehension"
  | .unary _ op e => node "UnaryOperation" [op.text, short e]
  | .binary _ op a b => node "BinaryOperation" [short a, op.text, short b]
  | .binding _ n e => node "LetBinding" [n, short e]
  | .lambda _ _ params body => node "LambdaExpression" [Text.quotedList params, short body]
  | .call _ callee arguments => node "FunctionCall" [short callee, bracketed (fulls arguments)]
  | .cond _ _ _ _ => bare "IfExpression"
  | .select _ _ _ => bare "MatchExpression"
  | .block _ ss => node "Block" [bracketed (statements ss)]
  | .sequence _ es => node "SequenceExpression" [bracketed (fulls es)]

def short : Expr → Text
  | .lambda _ _ params _ => node "fn" params
  | e => full e

def fulls : List Expr → List Text
  | [] => []
  | e :: es => full e :: fulls es

def statement : Stmt → Text
  | .expr e => full e
  | .publicBinding _ n e => "pub " ++ node "LetBinding" [n, short e]
  | .variation _ _ _ _ _ => bare "Variation"
  | .module _ isPublic n body =>
    (if isPublic then "pub " else "" : Text) ++
      node "ModuleDeclaration" [n, bracketed (statements body)]
  | .imports _ ns path => node "Import" [Text.quotedList ns, Text.quoted path]

def statements : List Stmt → List Text
  | [] => []
  | s :: ss => statement s :: statements ss

end

end Outline

def Program.outline (p : Program) : Text :=
  Outline.node "Program" [Outline.bracketed (Outline.statements p)]

end ModuleScript
