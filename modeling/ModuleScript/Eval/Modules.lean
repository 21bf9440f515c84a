import ModuleScript.Eval.Bindings

/-!
# Module declarations

A module is registered and bound to its name; all its members are declared as pending; then its
statements run in order. If anything fails, the module and all modules below it are dropped and the
name means again what it meant before.
-/

set_option autoImplicit false

namespace ModuleScript.Eval

/-- The name that a statement of a module body declares, with its visibility. -/
def declared? : Stmt → Option (Ident × Visibility)
  | .expr (.binding _ n _) => some (n, .isPrivate)
  | .publicBinding _ n _ => some (n, .isPublic)
  | .module _ isPublic n _ => some (n, Visibility.ofBool isPublic)
  | _ => none

def declareMembers (id : RecordId) (body : List Stmt) : Eval Unit :=
  (body.filterMap declared?).forM fun (n, v) =>
    change fun m => ((m.record id).declare n v).map (m.setRecord id)

/-- What a name means in a frame and among the exports before a module takes it. -/
structure Previous where
  slot : Option Slot
  exported : Option Value

def previous (c : Context) (name : Ident) (m : Machine) : Previous :=
  ⟨(m.frame c.scope.frame).bindings.get? name, (m.exportsOf c.site.exports).get? name⟩

/-- Gives a name back its meaning; a member becomes pending again. -/
def restore (c : Context) (name : Ident) (old : Previous) (m : Machine) : Machine :=
  match (m.frame c.scope.frame).record with
  | some id => m.defineMember id name .pending .isPrivate
  | none =>
    let m := match old.slot with
      | none => m.eraseSlot c.scope.frame name
      | some slot => m.setSlot c.scope.frame name slot
    if c.scope.frame = c.site.globals then
      match old.exported with
      | none => m.eraseExport c.site.exports name
      | some v => m.setExport c.site.exports name v
    else m

def register (c : Context) (name : Ident) : Eval (RecordId × ModulePath × Bool) := fun m =>
  let parent := (m.frame c.scope.frame).record
  let path := match parent with
    | some id => (m.record id).path.child name
    | none => ⟨c.site.source, [name]⟩
  match m.declareModule path parent with
  | .ok (id, m') => .ok (id, path, parent.isNone) m'
  | .error e => .error e m

/-- A module whose body is about to run: its record, what its name meant before, and the context of
its statements. -/
structure Opened where
  id : RecordId
  path : ModulePath
  old : Previous
  inner : Context

/-- Registers a module and binds its name. A module outside all others is exported whether it is
public or not. -/
def openModule (c : Context) (isPublic : Bool) (name : Ident) : Eval Opened := do
  let (id, path, isOutermost) ← register c name
  let old := previous c name (← get)
  define c name (.module id path) (isPublic || isOutermost)
  let inner ← c.enter { name := "mod " ++ path.text, record := some id }
  return ⟨id, path, old, { inner with module := some path }⟩

def declareModule (self : Step) (c : Context) (isPublic : Bool) (name : Ident)
    (body : List Stmt) : Eval Value := do
  let o ← openModule c isPublic name
  mending
    (do
      declareMembers o.id body
      let _ ← self.stmts o.inner body
      return .module o.id o.path)
    fun m => restore c name o.old (m.removeModule o.path)

end ModuleScript.Eval
