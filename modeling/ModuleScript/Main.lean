import ModuleScript.Console.Commands
import ModuleScript.Program.Imports

/-!
# The program

Reads the files that the arguments name and all that those can import, does what the arguments ask
for, and writes what that leaves behind. Standard input is read only if it is asked for.
-/

set_option autoImplicit false

namespace ModuleScript.CommandLine

/-- A code point that has no character is shown as a replacement character. -/
def character (c : CodePoint) : Char := if c.isSurrogate then '\uFFFD' else Char.ofNat c.val

def string (t : Text) : String := String.ofList (t.map character)

/-- The files found so far, the directories they lie in, and the paths that may be asked for. -/
structure Search where
  disk : Disk
  directories : List Path
  wanted : List Text
  tried : List Path := []

/-- A place below a directory, so that the directory is known. -/
def placeholder (p : Path) : List Text × List UInt8 := (p.parts ++ [[]], [])

def contents? (name : String) : IO (Option ByteArray) := do
  try
    return some (← IO.FS.readBinFile name)
  catch _ => return none

def Search.visit (s : Search) (p : Path) : IO Search := do
  let s := { s with tried := p :: s.tried }
  let here ← IO.currentDir
  if ← (here / string p.text).isDir then
    return { s with disk := { s.disk with files := placeholder p :: s.disk.files } }
  match ← contents? (string p.text) with
  | none => return s
  | some bytes =>
    let disk : Disk := { s.disk with files := (p.parts, bytes.toList) :: s.disk.files }
    let more := match disk.readText p with
      | .ok source => importedPaths source
      | .error _ => []
    return { s with
      disk := disk, directories := p.parent :: s.directories, wanted := more ++ s.wanted }

/-- Visits every path that may be asked for from every directory until nothing new is found. -/
partial def Search.exhaust (s : Search) : IO Search := do
  let candidates := s.directories.flatMap fun d =>
    s.wanted.map fun t => Path.resolve d (Path.ofText t)
  match candidates.find? fun p => !s.tried.contains p with
  | none => return s
  | some p => (← s.visit p).exhaust

partial def readInput (soFar : String) : IO String := do
  let line ← (← IO.getStdin).getLine
  if line.isEmpty then return soFar else readInput (soFar ++ line)

/-- The disk as far as the arguments and the imports in the given input reach. -/
def findDisk (arguments : List Text) (input : Text) : IO Disk := do
  let here := Path.ofText (Text.ofString (← IO.currentDir).toString)
  let lines := (Text.lines input).flatMap importedPaths
  let s ← Search.exhaust ⟨⟨here, []⟩, [here], arguments ++ lines, []⟩
  return s.disk

/-- Does what the arguments ask for. A trial shows whether any input is asked for. -/
def perform (arguments : List Text) : IO Console.Outcome := do
  let trialInput : Text := "\n"
  let execute := @Console.execute (.usual true)
  let trial := execute (← findDisk arguments []) arguments trialInput
  if trial.input = trialInput then return trial
  let input := Text.ofString (← readInput "")
  return execute (← findDisk arguments input) arguments input

end ModuleScript.CommandLine

open ModuleScript in
def main (arguments : List String) : IO UInt32 := do
  let outcome ← CommandLine.perform (arguments.map Text.ofString)
  (← IO.getStdout).putStr (CommandLine.string outcome.output)
  (← IO.getStderr).putStr (CommandLine.string outcome.errors)
  match outcome.ending with
  | .ok code => return code.toUInt32
  | .error fault =>
    IO.eprintln (CommandLine.string fault.message)
    return 1
