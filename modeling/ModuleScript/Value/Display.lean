import ModuleScript.Text.Escape
import ModuleScript.Value.Basic

/-!
# Displayed values

The text of a value. Texts and chars stand for themselves, but inside a list, and wherever the
nested form is asked for, they are quoted and escaped. An integer with too many digits cannot be
displayed.
-/

set_option autoImplicit false

namespace ModuleScript.Value

def enclosed (quote : CodePoint) (t : Text) : Text := quote :: Escape.escape t ++ [quote]

def functionText (name : Option Ident) : Text := "<fn " ++ name.getD "anonymous" ++ ">"

mutual

/-- The text of a value inside a list. -/
def nested : Value → Except Fault Text
  | number n => n.text
  | text t => .ok (enclosed '"' t)
  | char c => .ok (enclosed '\'' [c])
  | bool b => .ok (if b then "true" else "false" : Text)
  | unit => .ok "()"
  | list items => do
    let parts ← nestedItems items
    return "[" ++ Text.join ", " parts ++ "]"
  | closure c => .ok (functionText c.name)
  | native n => .ok (functionText (some n.name))
  | module _ path => .ok ("<mod " ++ path.text ++ ">")

def nestedItems : List Value → Except Fault (List Text)
  | [] => .ok []
  | v :: vs => do
    let part ← nested v
    let parts ← nestedItems vs
    return part :: parts

end

def display : Value → Except Fault Text
  | text t => .ok t
  | char c => .ok [c]
  | v => v.nested

end ModuleScript.Value
