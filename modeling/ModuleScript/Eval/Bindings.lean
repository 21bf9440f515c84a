import ModuleScript.Eval.Names

/-!
# Bindings and functions

A name is bound in the innermost frame, or as a member if that frame belongs to a module. Adding a
variant to a function makes a new function, which takes the place of the old one where its name was
found.
-/

set_option autoImplicit false

namespace ModuleScript.Eval

def define (c : Context) (name : Ident) (v : Value) (isPublic : Bool) : Eval Unit :=
  modify fun m =>
    match (m.frame c.scope.frame).record with
    | some id => m.defineMember id name (.value v) (Visibility.ofBool isPublic)
    | none =>
      let m := m.setSlot c.scope.frame name (.value v)
      if isPublic ∧ c.scope.frame = c.site.globals then m.setExport c.site.exports name v else m

def newClosure (name : Option Ident) (variants : List Variant) : Eval Value := fun m =>
  .ok (.closure ⟨m.functions, name, variants⟩) { m with functions := m.functions + 1 }

/-- One arity of a function written where the code runs. -/
def variantHere (c : Context) (params : List Ident) (body : Expr) : Variant :=
  ⟨params, body, c.scope, c.module⟩

def replace (c : Context) (r : Resolution) (name : Ident) (v : Value) : Eval Unit :=
  modify fun m =>
    match r.owner with
    | some id => m.defineMember id name (.value v) .isPrivate
    | none =>
      let m := m.setSlot r.frame name (.value v)
      if r.frame = c.site.globals ∧ (m.exportsOf c.site.exports).has name then
        m.setExport c.site.exports name v
      else m

/-- Adds a variant to the function that a name stands for. -/
def vary (c : Context) (name : Ident) (variant : Variant) : Eval Value := do
  let (r, existing) ← resolve c name
  match existing with
  | .closure f =>
    if (f.variant? variant.arity).isSome then
      because (.duplicateVariant name variant.arity)
    else
      let updated ← newClosure f.name (f.variants ++ [variant])
      replace c r name updated
      return updated
  | v => because (.noFunctionToVary name v.typeName)

end ModuleScript.Eval
