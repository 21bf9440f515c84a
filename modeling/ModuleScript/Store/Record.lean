import ModuleScript.Report.Cause
import ModuleScript.Store.Bindings
import ModuleScript.Value.Operators

/-!
# Module records

The members of a module, public and private. A name is declared before its initializer runs and is
pending until then. A name that has been declared keeps its visibility.
-/

set_option autoImplicit false

namespace ModuleScript

/-- What a name is bound to: a value, or nothing yet. -/
inductive Slot where
  | pending
  | value (v : Value)

structure Record where
  path : ModulePath
  parent : Option RecordId
  publicMembers : Bindings Slot := []
  privateMembers : Bindings Slot := []

namespace Record

def members (r : Record) : Visibility → Bindings Slot
  | .isPublic => r.publicMembers
  | .isPrivate => r.privateMembers

def visibility? (r : Record) (name : Ident) : Option Visibility :=
  if r.publicMembers.has name then some .isPublic
  else if r.privateMembers.has name then some .isPrivate
  else none

def member? (r : Record) (name : Ident) : Option (Slot × Visibility) :=
  match r.publicMembers.get? name with
  | some s => some (s, .isPublic)
  | none => (r.privateMembers.get? name).map (·, .isPrivate)

def setMember (r : Record) (v : Visibility) (name : Ident) (s : Slot) : Record :=
  match v with
  | .isPublic => { r with publicMembers := r.publicMembers.set name s }
  | .isPrivate => { r with privateMembers := r.privateMembers.set name s }

/-- Registers a name as pending. A name may be repeated with the same visibility. -/
def declare (r : Record) (name : Ident) (v : Visibility) : Except Failure Record :=
  match r.visibility? name with
  | none => .ok (r.setMember v name .pending)
  | some w => if v = w then .ok r else Failure.because (.publicAndPrivate name r.path.text)

/-- Gives a name a slot, under the given visibility if it has none yet. -/
def define (r : Record) (name : Ident) (s : Slot) (v : Visibility) : Record :=
  r.setMember ((r.visibility? name).getD v) name s

/-- The names in order, the public ones first. -/
def names (r : Record) : List Ident := r.publicMembers.names ++ r.privateMembers.names

theorem member?_isSome (r : Record) (name : Ident) :
    (r.member? name).isSome = (r.visibility? name).isSome := by
  unfold member? visibility?
  rw [Bindings.has_eq_isSome, Bindings.has_eq_isSome]
  cases r.publicMembers.get? name <;> cases r.privateMembers.get? name <;> rfl

/-- A member keeps the visibility it has. -/
theorem visibility?_define (r : Record) (name other : Ident) (s : Slot) (v : Visibility) :
    (r.define name s v).visibility? other =
      if name = other then some ((r.visibility? name).getD v) else r.visibility? other := by
  by_cases h : name = other
  · subst h
    cases hp : r.publicMembers.has name <;> cases hq : r.privateMembers.has name <;> cases v <;>
      simp [define, setMember, visibility?, Bindings.has_set, hp, hq]
  · unfold define
    generalize (r.visibility? name).getD v = w
    cases hp : r.publicMembers.has other <;> cases hq : r.privateMembers.has other <;> cases w <;>
      simp [setMember, visibility?, Bindings.has_set, h, hp, hq]

end Record

end ModuleScript
