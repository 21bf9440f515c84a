import ModuleScript.Eval.Bindings

/-!
# Imports

A file is evaluated once, in a frame of its own around which there are only the prelude and the
natives. An import binds the names it asks for, one after the other.
-/

set_option autoImplicit false

namespace ModuleScript.Eval

/-- The frames that every file shares. -/
def builtinsFrame : FrameId := 0

def preludeFrame : FrameId := 1

/-- The frame in which the sources given to a session run. -/
def globalFrame : FrameId := 2

/-- A new table of exports for a source that runs with the given frame as its own. -/
def newSite (source : Text) (globals : FrameId) : Eval Site := fun m =>
  .ok ⟨source, globals, m.exports.size⟩ { m with exports := m.exports.push [] }

/-- The context of the statements of a file or source. -/
def top (s : Site) (outer : List FrameId) : Context := ⟨s, ⟨s.globals, outer⟩, none⟩

def openFile (path : Path) : Eval Site := do
  let globals ← newFrame { name := "global " ++ path.name }
  newSite path.text globals

def evaluateFile (h : Host) (self : Step) (path : Path) : Eval Exports := do
  let source ← lift (Failure.lift (h.disk.readText path))
  self.ask (.read source)
  let program ← lift (h.read path.text source)
  let site ← openFile path
  let _ ← self.stmts (top site [preludeFrame, builtinsFrame]) program
  return (← get).exportsOf site.exports

/-- The exports of a file, which is evaluated if it has not been yet. -/
def load (h : Host) (self : Step) (relative importer : Text) : Eval Exports := do
  let path ← lift (Failure.lift (h.disk.resolveImport relative importer))
  match (← get).loaded? path with
  | some exports => return exports
  | none =>
    if !(← lift (Failure.lift (h.disk.isFile path))) then
      because (.cannotFind relative path.text)
    change (·.beginLoading path)
    let exports ← mending (evaluateFile h self path) (·.abortLoading path)
    change (·.finishLoading path exports)
    return exports

/-- Binds imported names; a name that is not exported ends the import there. -/
def bindImports (c : Context) (path : Text) (exports : Exports) : List Ident → Eval Unit
  | [] => pure ()
  | name :: rest =>
    match exports.get? name with
    | none => because (.notExported path name)
    | some v => do
      define c name v false
      bindImports c path exports rest

def imports (h : Host) (self : Step) (c : Context) (names : List Ident) (path : Text) :
    Eval Value := do
  let exports ← load h self path c.site.source
  bindImports c path exports names
  return .unit

end ModuleScript.Eval
