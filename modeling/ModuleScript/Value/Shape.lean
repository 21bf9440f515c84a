import ModuleScript.Value.Basic

/-!
# The shapes of values

A shape shows how the lists of a value are nested and of which kinds the values in them are, but not
what they are. How deep work on a value goes depends on its shape alone.
-/

set_option autoImplicit false

namespace ModuleScript

inductive Shape where
  /-- Not a list; some integers have too many digits to be written. -/
  | leaf (kind : Text) (isWritable : Bool)
  | list (items : List Shape)

namespace Value

/-- Whether a value other than a list has a text. -/
def isWritable : Value → Bool
  | number (.int i) => Decimal.writable i
  | _ => true

mutual

def shape : Value → Shape
  | list items => .list (shapes items)
  | v => .leaf v.typeName v.isWritable

def shapes : List Value → List Shape
  | [] => []
  | v :: vs => v.shape :: shapes vs

end

end Value

end ModuleScript
