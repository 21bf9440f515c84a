import ModuleScript.Files.Path
import ModuleScript.Store.Record
import ModuleScript.Text.Quoted

/-!
# The machine

Everything that a run changes: frames of bindings, module records, the registry of modules, the
files loaded and being loaded, the input that is left and the output so far. Frames and records are
never removed. A scope is a chain of frames, innermost first; a frame that belongs to a module looks
among the module's members before its own bindings.
-/

set_option autoImplicit false

namespace ModuleScript

structure Frame where
  name : Text
  record : Option RecordId := none
  bindings : Bindings Slot := []

instance : Inhabited Frame := ⟨⟨[], none, []⟩⟩

instance : Inhabited Record := ⟨⟨⟨[], []⟩, none, [], []⟩⟩

/-- The name of a frame and the names bound in it, sorted. -/
def Frame.outline (f : Frame) : Text :=
  "Scope(" ++ f.name ++ ", " ++ Text.quotedList (Text.sort f.bindings.names) ++ ")"

abbrev Exports := Bindings Value

abbrev ExportsId := Nat

/-- What a name stands for: the slot and where it was found. -/
structure Resolution where
  slot : Slot
  frame : FrameId
  owner : Option RecordId
  visibility : Visibility

structure Machine where
  frames : Array Frame := #[]
  records : Array Record := #[]
  registry : List (ModulePath × RecordId) := []
  /-- One table for each file or source that has been evaluated. -/
  exports : Array Exports := #[]
  /-- The files that have been evaluated and what they export. -/
  loaded : List (Path × Exports) := []
  /-- The files whose evaluation has begun, outermost first. -/
  loading : List Path := []
  /-- How many functions have been made. -/
  functions : Nat := 0
  input : Text := []
  /-- What has been written, the last text first. -/
  written : List Text := []

namespace Machine

/-! ## Frames -/

def frame (m : Machine) (id : FrameId) : Frame := m.frames[id]?.getD default

def pushFrame (m : Machine) (f : Frame) : Machine := { m with frames := m.frames.push f }

def setSlot (m : Machine) (id : FrameId) (name : Ident) (s : Slot) : Machine :=
  { m with frames := m.frames.modify id fun f => { f with bindings := f.bindings.set name s } }

def eraseSlot (m : Machine) (id : FrameId) (name : Ident) : Machine :=
  { m with frames := m.frames.modify id fun f => { f with bindings := f.bindings.erase name } }

theorem frame_pushFrame (m : Machine) (f : Frame) {id : FrameId} (h : id < m.frames.size) :
    (m.pushFrame f).frame id = m.frame id := by
  simp [frame, pushFrame, Array.getElem?_push, Nat.ne_of_lt h]

theorem frame_setSlot (m : Machine) {id : FrameId} (h : id < m.frames.size) (other : FrameId)
    (name : Ident) (s : Slot) :
    (m.setSlot id name s).frame other =
      if id = other then
        { m.frame id with bindings := (m.frame id).bindings.set name s }
      else m.frame other := by
  by_cases e : id = other
  · subst e
    simp [frame, setSlot, Array.getElem_modify, h]
  · simp [frame, setSlot, Array.getElem?_modify, e]

/-! ## Records -/

def record (m : Machine) (id : RecordId) : Record := m.records[id]?.getD default

def setRecord (m : Machine) (id : RecordId) (r : Record) : Machine :=
  { m with records := m.records.modify id fun _ => r }

def defineMember (m : Machine) (id : RecordId) (name : Ident) (s : Slot) (v : Visibility) :
    Machine :=
  m.setRecord id ((m.record id).define name s v)

/-! ## Names -/

def lookupIn (m : Machine) (name : Ident) (id : FrameId) : Option Resolution :=
  let f := m.frame id
  let member := f.record.bind fun r =>
    ((m.record r).member? name).map fun (s, v) => ⟨s, id, some r, v⟩
  member <|> (f.bindings.get? name).map fun s => ⟨s, id, none, .isPublic⟩

def lookup (m : Machine) (s : Scope) (name : Ident) : Option Resolution :=
  s.chain.findSome? (m.lookupIn name)

/-! ## The registry of modules -/

def module? (m : Machine) (p : ModulePath) : Option RecordId :=
  (m.registry.find? (·.1 == p)).map (·.2)

def declareModule (m : Machine) (p : ModulePath) (parent : Option RecordId) :
    Except Failure (RecordId × Machine) :=
  match m.module? p with
  | some _ => Failure.because (.moduleExists p.text p.source)
  | none =>
    let id := m.records.size
    .ok (id, { m with records := m.records.push { path := p, parent := parent },
                      registry := m.registry ++ [(p, id)] })

def removeModule (m : Machine) (p : ModulePath) : Machine :=
  { m with registry := m.registry.filter fun entry => !p.within entry.1 }

/-! ## Files -/

def loaded? (m : Machine) (p : Path) : Option Exports :=
  (m.loaded.find? (·.1 == p)).map (·.2)

/-- Marks a file as being loaded; it must not be so already. -/
def beginLoading (m : Machine) (p : Path) : Except Failure Machine :=
  if p ∈ m.loading then
    Failure.because (.circularImport ((m.loading ++ [p]).map Path.text))
  else .ok { m with loading := m.loading ++ [p] }

def setLoaded (p : Path) (e : Exports) : List (Path × Exports) → List (Path × Exports)
  | [] => [(p, e)]
  | (q, old) :: rest => if q = p then (p, e) :: rest else (q, old) :: setLoaded p e rest

def abortLoading (m : Machine) (p : Path) : Machine := { m with loading := m.loading.erase p }

/-- Records what a file being loaded exports. -/
def finishLoading (m : Machine) (p : Path) (e : Exports) : Except Failure Machine :=
  if p ∈ m.loading then
    .ok { m with loading := m.loading.erase p, loaded := setLoaded p e m.loaded }
  else .error (.fault .notLoading)

/-! ## Exports -/

def exportsOf (m : Machine) (id : ExportsId) : Exports := m.exports[id]?.getD []

def setExport (m : Machine) (id : ExportsId) (name : Ident) (v : Value) : Machine :=
  { m with exports := m.exports.modify id (·.set name v) }

def eraseExport (m : Machine) (id : ExportsId) (name : Ident) : Machine :=
  { m with exports := m.exports.modify id (·.erase name) }

/-! ## Input and output -/

def write (m : Machine) (t : Text) : Machine := { m with written := t :: m.written }

def output (m : Machine) : Text := m.written.reverse.flatten

end Machine

end ModuleScript
