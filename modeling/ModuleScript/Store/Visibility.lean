import ModuleScript.Text.Basic

/-!
# Module paths and visibility

A module is named by the source it was declared in and the names that lead to it. A private member
is visible only to code whose own module is exactly the member's module.
-/

set_option autoImplicit false

namespace ModuleScript

structure ModulePath where
  source : Text
  names : List Ident
  deriving DecidableEq, Repr

namespace ModulePath

def child (p : ModulePath) (name : Ident) : ModulePath := ⟨p.source, p.names ++ [name]⟩

def text (p : ModulePath) : Text := Text.join "." p.names

/-- Is `p` itself or lies below it. -/
def within (p q : ModulePath) : Bool := q.source == p.source && p.names.isPrefixOf q.names

end ModulePath

inductive Visibility where
  | isPublic
  | isPrivate
  deriving DecidableEq, Repr

def Visibility.ofBool (isPublic : Bool) : Visibility :=
  if isPublic then .isPublic else .isPrivate

/-- Whether code of one module, or of none, may see a member of another. -/
def canAccess (code : Option ModulePath) (owner : ModulePath) (v : Visibility) : Bool :=
  v == .isPublic || code == some owner

end ModuleScript
