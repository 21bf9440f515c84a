import ModuleScript.Program.Layout

/-!
# Imported paths

The paths that a source may import when it runs, wherever in it the imports stand.
-/

set_option autoImplicit false

namespace ModuleScript

def pathsBehindFrom : List Token → List Text
  | t :: u :: rest =>
    match t.kind, u.kind with
    | .keyword .fromWord, .string path => path :: pathsBehindFrom (u :: rest)
    | _, _ => pathsBehindFrom (u :: rest)
  | _ => []

/-- The paths in the imports of a source, as far as its tokens can be read. -/
def importedPaths (source : Text) : List Text := pathsBehindFrom (tokenize [] source).1

end ModuleScript
