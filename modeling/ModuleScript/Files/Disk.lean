import ModuleScript.Fault
import ModuleScript.Files.Path
import ModuleScript.Report.Excerpt
import ModuleScript.Text.Utf8

/-!
# Files on disk

A disk holds files by their absolute names and has a working directory. Directories are what lies
above a file or the working directory. Files are read as UTF-8 text.
-/

set_option autoImplicit false

namespace ModuleScript

structure Disk where
  directory : Path
  files : List (List Text × List UInt8)

namespace Disk

inductive Entry where
  | file (bytes : List UInt8)
  | directory

def entry? (d : Disk) (parts : List Text) : Option Entry :=
  match d.files.find? (·.1 == parts) with
  | some (_, bytes) => some (.file bytes)
  | none =>
    if parts.isPrefixOf d.directory.parts || d.files.any (fun f => parts.isPrefixOf f.1) then
      some .directory
    else none

/-- Surrogates in this range stand for octets that are not UTF-8 and may be part of a file name. -/
def standsForOctet (c : CodePoint) : Bool := 0xDC80 ≤ c.val && c.val ≤ 0xDCFF

/-- The number of octets of a text as a file name. -/
def octets (t : Text) : Nat :=
  t.foldl (fun n c => n + width c) 0
where
  width (c : CodePoint) : Nat :=
    if c.val < 0x80 || standsForOctet c then 1
    else if c.val < 0x800 then 2 else if c.val < 0x10000 then 3 else 4

/-- The most octets of one name and of a whole path. -/
def maxName : Nat := 255

def maxPath : Nat := 4095

def walk (d : Disk) (here : List Text) : List Text → Except FileTrouble (List Text)
  | [] => .ok here
  | part :: rest =>
    match d.entry? here with
    | none => .error .missing
    | some (.file _) => .error .notDirectory
    | some .directory =>
      if maxName < octets part then .error .nameTooLong else d.walk (Path.descend here part) rest

def checkName (p : Path) : Except Fault Unit :=
  let t := p.text
  match t.surrogates? standsForOctet with
  | some (row, place) => .error (.surrogateInPath row place)
  | none => if t.contains .null then .error .nullInPath else .ok ()

def checkWay (here : Path) : List Text → Except Fault Unit
  | [] => .ok ()
  | part :: rest => do
    let here := here.enter part
    if part ≠ ".." then checkName here
    checkWay here rest

def read (d : Disk) (p : Path) : Except Fault (List UInt8) := do
  checkName p
  if maxPath < octets p.text then throw (.file .nameTooLong p.text)
  let start := if p.isAbsolute then [] else d.directory.parts
  match d.walk start p.parts with
  | .error trouble => throw (.file trouble p.text)
  | .ok place =>
    match d.entry? place with
    | some (.file bytes) => return bytes
    | some .directory => throw (.file .isDirectory p.text)
    | none => throw (.file .missing p.text)

/-- The text of a file, with newlines for all line ends. -/
def readText (d : Disk) (p : Path) : Except Fault Text := do
  let bytes ← d.read p
  match Utf8.decode bytes with
  | some t => return Text.normalizeNewlines t
  | none => throw .undecodable

/-- Whether a path names a file. Only a name that is too long is a fault. -/
def isFile (d : Disk) (p : Path) : Except Fault Bool :=
  match d.read p with
  | .ok _ => .ok true
  | .error (.file .nameTooLong t) => .error (.file .nameTooLong t)
  | .error _ => .ok false

def excerpt? (d : Disk) (file : Text) (line radius : Int) : Option Text :=
  match d.readText (Path.ofText file) with
  | .ok contents => excerpt contents line radius
  | .error _ => none

/-- The absolute path of an import, seen from the file that holds it. A source whose name starts
with an angle bracket is no file and lies in the working directory. -/
def resolveImport (d : Disk) (path importer : Text) : Except Fault Path := do
  let base : Path := match importer with
    | c :: _ => if c = '<' then d.directory else (Path.ofText importer).parent
    | [] => (Path.ofText importer).parent
  let target := base.append (Path.ofText path)
  checkWay ⟨target.root.take 1, []⟩ target.parts
  return d.directory.resolve target

end Disk

end ModuleScript
