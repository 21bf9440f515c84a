import ModuleScript.Eval.Basic

/-!
# Names

A name stands for its innermost meaning. If that is a member of a module, the code that uses the
name must have access to it; there is no second choice.
-/

set_option autoImplicit false

namespace ModuleScript.Eval

def readSlot (code : Option ModulePath) (owner : Option ModulePath) (v : Visibility)
    (name : Ident) (s : Slot) : Eval Value :=
  match owner.filter fun path => !canAccess code path v with
  | some path => because (.privateMember name path.text)
  | none =>
    match s with
    | .pending => because (.uninitialized name)
    | .value value => pure value

def resolve (c : Context) (name : Ident) : Eval (Resolution × Value) := do
  let m ← get
  match m.lookup c.scope name with
  | none => because (.unbound name)
  | some r =>
    let owner := r.owner.map fun id => (m.record id).path
    let value ← readSlot c.module owner r.visibility name r.slot
    return (r, value)

/-- Follows names from a value that the names walked so far led to. -/
def follow (c : Context) (walked : Text) (v : Value) : List Ident → Eval Value
  | [] => pure v
  | name :: rest =>
    match v with
    | .module id path => do
      let m ← get
      match (m.record id).member? name with
      | none => because (.noMember path.text name)
      | some (slot, visibility) =>
        let next ← readSlot c.module (some path) visibility name slot
        follow c (walked ++ "." ++ name) next rest
    | v => because (.notModule walked v.typeName)

def dotted (c : Context) : List Ident → Eval Value
  | [] => pure .unit
  | first :: rest => do
    let (_, v) ← resolve c first
    follow c first v rest

end ModuleScript.Eval
