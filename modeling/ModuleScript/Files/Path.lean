import ModuleScript.Text.Basic

/-!
# Paths

A path is a root (none, `/` or `//`) and the names below it. Empty names and single dots disappear
when a text is read as a path; double dots disappear only when a path is resolved.
-/

set_option autoImplicit false

namespace ModuleScript

structure Path where
  root : Text
  parts : List Text
  deriving DecidableEq, Repr

namespace Path

def slash : CodePoint := '/'

def splitSlashes : Text → List Text
  | [] => [[]]
  | c :: rest =>
    if c = slash then [] :: splitSlashes rest else Text.consPart c (splitSlashes rest)

/-- Exactly two slashes at the beginning are a root of their own. -/
def rootOf (t : Text) : Text :=
  match (t.takeWhile (· == slash)).length with
  | 0 => []
  | 2 => [slash, slash]
  | _ => [slash]

def ofText (t : Text) : Path :=
  ⟨rootOf t, (splitSlashes t).filter fun part => part != [] && part != "."⟩

def text (p : Path) : Text :=
  if p.root = [] ∧ p.parts = [] then "." else p.root ++ Text.join [slash] p.parts

def isAbsolute (p : Path) : Bool := p.root != []

def append (p q : Path) : Path := if q.isAbsolute then q else ⟨p.root, p.parts ++ q.parts⟩

def parent (p : Path) : Path := ⟨p.root, p.parts.dropLast⟩

def name (p : Path) : Text := p.parts.getLast?.getD []

/-- Goes down by a name, or up by a double dot. -/
def descend (parts : List Text) (part : Text) : List Text :=
  if part = ".." then parts.dropLast else parts ++ [part]

/-- Goes from a path down by a name, or up by a double dot. A path without a root that leads nowhere
or only upwards goes further up. -/
def enter (p : Path) (part : Text) : Path :=
  if part = ".." ∧ !p.isAbsolute ∧ (p.parts = [] ∨ p.parts.getLast? = some "..") then
    ⟨p.root, p.parts ++ [part]⟩
  else ⟨p.root, descend p.parts part⟩

/-- The absolute path without double dots, seen from a directory. -/
def resolve (directory p : Path) : Path :=
  ⟨[slash], (directory.append p).parts.foldl descend []⟩

theorem up_notMem_foldl_descend (names : List Text) {parts : List Text}
    (h : (".." : Text) ∉ parts) : (".." : Text) ∉ names.foldl descend parts := by
  induction names generalizing parts with
  | nil => exact h
  | cons name rest ih =>
    apply ih
    unfold descend
    split
    · exact fun hm => h ((List.dropLast_sublist parts).mem hm)
    · rename_i hn
      simp [h, Ne.symm hn]

theorem up_notMem_resolve (directory p : Path) : (".." : Text) ∉ (resolve directory p).parts :=
  up_notMem_foldl_descend _ (by simp)

end Path

end ModuleScript
