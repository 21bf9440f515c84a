import ModuleScript.Proofs.Afresh.Gap
import ModuleScript.Proofs.Modules.Table
import ModuleScript.Proofs.Sessions
import ModuleScript.Proofs.Watch

/-!
# What a session shows

What one can tell of a value from outside: everything but which frames, module records and functions
of the run it refers to. A session shows of each command the value or the failure, and what has been
written. Whether a module is registered or a file loaded shows only where a module of this path is
declared or the file is imported.
-/

set_option autoImplicit false

namespace ModuleScript

/-- The code of a variant, without the scope that it was written in. -/
def Variant.sketch (v : Variant) : Variant := { v with scope := ⟨0, []⟩ }

def Closure.sketch (f : Closure) : Closure := ⟨0, f.name, f.variants.map Variant.sketch⟩

namespace Value

mutual

/-- The value without the places it refers to. -/
def sketch : Value → Value
  | list items => list (sketchItems items)
  | closure f => closure f.sketch
  | module _ path => module 0 path
  | v => v

def sketchItems : List Value → List Value
  | [] => []
  | v :: vs => sketch v :: sketchItems vs

end

mutual

theorem nested_sketch : ∀ v : Value, v.sketch.nested = v.nested
  | list items => by rw [sketch, nested, nested, nestedItems_sketch items]
  | closure f => by rw [sketch, nested, nested, Closure.sketch]
  | module i p => by rw [sketch, nested, nested]
  | number _ | text _ | char _ | bool _ | unit | native _ => rfl

theorem nestedItems_sketch : ∀ vs : List Value, nestedItems (sketchItems vs) = nestedItems vs
  | [] => rfl
  | v :: vs => by
    rw [sketchItems, nestedItems, nestedItems, nested_sketch v, nestedItems_sketch vs]

end

/-- The sketch is displayed as the value is. -/
theorem display_sketch (v : Value) : v.sketch.display = v.display := by
  cases v with
  | list items => exact nested_sketch (.list items)
  | closure f => exact nested_sketch (.closure f)
  | module i p => exact nested_sketch (.module i p)
  | _ => rfl

end Value

namespace Gaps

theorem sketch_past (g : Gaps) (f : Closure) : (f.past g).sketch = f.sketch := by
  have hvariants : (f.past g).variants.map Variant.sketch = f.variants.map Variant.sketch :=
    List.map_map
  unfold Closure.sketch
  rw [hvariants]
  rfl

mutual

/-- Values at corresponding places have one sketch. -/
theorem sketch_eq {g : Gaps} : ∀ {v v' : Value}, g.like.Matches v v' → v.sketch = v'.sketch
  | _, _, .plain _ => rfl
  | _, _, .closure h => by rw [h, Value.sketch, Value.sketch, sketch_past]
  | _, _, .module h => by rw [h.2, Value.sketch, Value.sketch]
  | .list _, .list _, .list h => by rw [Value.sketch, Value.sketch, sketchItems_eq h]

theorem sketchItems_eq {g : Gaps} : ∀ {vs vs' : List Value}, List.Forall₂ g.like.Matches vs vs' →
    Value.sketchItems vs = Value.sketchItems vs'
  | _, _, .nil => rfl
  | _, _, .cons h t => by rw [Value.sketchItems, Value.sketchItems, sketch_eq h, sketchItems_eq t]

end

end Gaps

/-- The task does not declare one of these modules and does not import one of these files. -/
structure Eval.Avoids (h : Host) (modules : ModulePath → Prop) (files : Path → Prop) (t : Task)
    (m : Machine) : Prop where
  module : ∀ {c l isPublic n body}, t = .eval c (.module l isPublic n body) →
    ¬ modules (m.pathFor c n)
  file : ∀ {c l names path p}, t = .eval c (.imports l names path) →
    h.disk.resolveImport path c.site.source = .ok p → ¬ files p

namespace Session

open Eval

/-- None of the commands leads to a declaration of one of these modules or to an import of one of these
files. -/
def Avoids (modules : ModulePath → Prop) (files : Path → Prop) (s : Session) : List Command → Prop
  | [] => True
  | c :: later =>
    Throughout s.host s.host.depth (Eval.Avoids s.host modules files) (c.perform s.host) s.machine ∧
      Avoids modules files (s.perform fun h => c.perform h h.runner).2 later

/-- What the session shows of the commands it is given: of each the value or the failure, and all that
has been written by then. -/
def shows (s : Session) : List Command → List (Except Failure Value × Text)
  | [] => []
  | c :: later =>
    let r := s.perform fun h => c.perform h h.runner
    (r.1.map Value.sketch, r.2.machine.output) :: shows r.2 later

end Session

end ModuleScript
