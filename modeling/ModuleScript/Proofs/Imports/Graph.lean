import Mathlib.Logic.Relation
import ModuleScript.Proofs.Imports.Exported
import ModuleScript.Proofs.Imports.ImportFree

/-!
# Which file imports which

The files of a program are known by their absolute paths, whatever the imports call them. One file
imports another if an import at its top leads there; files may do so in circles.
-/

set_option autoImplicit false

namespace ModuleScript

/-- A program in files: where it runs, and the name by which its main file is given. -/
structure Project where
  host : Host
  name : Text

namespace Project

variable (P : Project)

def main : Path := P.host.disk.directory.resolve (.ofText P.name)

/-- The path by which a file is read. -/
def file (p : Path) : Path := if p = P.main then .ofText P.name else p

def program? (p : Path) : Option Program :=
  match P.host.disk.readText (P.file p) with
  | .ok t => (P.host.read (P.file p).text t).toOption
  | .error _ => none

/-- The file that an import in a file leads to. -/
def target (p : Path) (path : Text) : Except Fault Path :=
  P.host.disk.resolveImport path (P.file p).text

/-- The statement at a position of a file is an import of another one. -/
def ImportsAt (p : Path) (i : Nat) (q : Path) : Prop :=
  ∃ program l names path, P.program? p = some program ∧
    program[i]? = some (.imports l names path) ∧ P.target p path = .ok q

def Imports (p q : Path) : Prop := ∃ i, P.ImportsAt p i q

abbrev Reaches : Path → Path → Prop := Relation.ReflTransGen P.Imports

/-- Some file that the main file reaches is reached from its own imports again. -/
def Cyclic : Prop := ∃ p, P.Reaches P.main p ∧ Relation.TransGen P.Imports p p

/-- An import in a file leads to a file that exports the names asked for. -/
structure Resolves (p : Path) (names : List Ident) (path : Text) (q : Path) : Prop where
  target : P.target p path = .ok q
  isFile : P.host.disk.isFile q = .ok true
  exported : ∃ program, P.program? q = some program ∧
    ∀ n ∈ names, n ∈ program.flatMap Stmt.exported

/-- All files reached can be read; imports stand at their tops only, name files that there are, and
ask for names that these export. -/
structure Importable : Prop where
  main : ∃ program, P.program? P.main = some program
  stmt : ∀ {p program s}, P.Reaches P.main p → P.program? p = some program → s ∈ program →
    ImportFree s ∨ ∃ l names path q, s = .imports l names path ∧ P.Resolves p names path q

variable {P} {p q : Path}

theorem file_main : P.file P.main = .ofText P.name := if_pos rfl

theorem file_of_ne (h : p ≠ P.main) : P.file p = p := if_neg h

theorem program?_eq_some {program : Program} (h : P.program? p = some program) :
    ∃ t, P.host.disk.readText (P.file p) = .ok t ∧
      P.host.read (P.file p).text t = .ok program := by
  unfold program? at h
  cases ht : P.host.disk.readText (P.file p) with
  | error e =>
    rw [ht] at h
    cases h
  | ok t =>
    rw [ht] at h
    dsimp only at h
    cases hr : P.host.read (P.file p).text t with
    | error e =>
      rw [hr] at h
      cases h
    | ok program' =>
      rw [hr] at h
      cases h
      exact ⟨t, rfl, hr⟩

theorem importsAt_of_resolves {i : Nat} {program : Program} {l : Location} {names : List Ident}
    {path : Text} (hp : P.program? p = some program)
    (hi : program[i]? = some (.imports l names path)) (h : P.Resolves p names path q) :
    P.ImportsAt p i q :=
  ⟨program, l, names, path, hp, hi, h.target⟩

theorem ImportsAt.unique {i : Nat} {r : Path} (h : P.ImportsAt p i q) (h' : P.ImportsAt p i r) :
    r = q := by
  obtain ⟨program, l, names, path, hp, hs, ht⟩ := h
  obtain ⟨program', l', names', path', hp', hs', ht'⟩ := h'
  rw [hp] at hp'
  cases hp'
  rw [hs] at hs'
  cases hs'
  rw [ht] at ht'
  cases ht'
  rfl

namespace Importable

variable (hP : P.Importable)

include hP

theorem resolves {program : Program} {l : Location} {names : List Ident} {path : Text}
    (hp : P.Reaches P.main p) (hprogram : P.program? p = some program)
    (hs : .imports l names path ∈ program) : ∃ q, P.Resolves p names path q := by
  rcases hP.stmt hp hprogram hs with hfree | ⟨_, _, _, q, he, hq⟩
  · cases hfree.not_import
  · cases he
    exact ⟨q, hq⟩

theorem program_of_imports (hp : P.Reaches P.main p) (h : P.Imports p q) :
    ∃ program, P.program? q = some program := by
  obtain ⟨i, program, l, names, path, hprogram, hi, ht⟩ := h
  obtain ⟨q', hq'⟩ := hP.resolves hp hprogram (List.mem_of_getElem? hi)
  rw [hq'.target] at ht
  cases ht
  obtain ⟨program', hprogram', -⟩ := hq'.exported
  exact ⟨program', hprogram'⟩

theorem program (hp : P.Reaches P.main p) : ∃ program, P.program? p = some program := by
  cases hp with
  | refl => exact hP.main
  | tail hp hq => exact hP.program_of_imports hp hq

end Importable

/-! ## Trails -/

variable (P) in
/-- The files being loaded, each imported by the one before; the last one is the file at work. -/
inductive Trail : List Path → Path → Prop where
  | main : Trail [P.main] P.main
  | step {ps : List Path} {p q : Path} : Trail ps p → P.Imports p q → q ∉ ps → Trail (ps ++ [q]) q

namespace Trail

variable {ps : List Path}

theorem mem (h : P.Trail ps p) : p ∈ ps := by
  cases h with
  | main => exact .head _
  | step _ _ _ => exact List.mem_append_right _ (.head _)

theorem main_mem (h : P.Trail ps p) : P.main ∈ ps := by
  induction h with
  | main => exact .head _
  | step _ _ _ ih => exact List.mem_append_left _ ih

theorem reaches_last (h : P.Trail ps p) : ∀ r ∈ ps, P.Reaches r p := by
  induction h with
  | main =>
    intro r hr
    rw [List.mem_singleton.mp hr]
  | step _ hq _ ih =>
    intro r hr
    rcases List.mem_append.mp hr with hr | hr
    · exact (ih r hr).tail hq
    · rw [List.mem_singleton.mp hr]

theorem reaches (h : P.Trail ps p) : P.Reaches P.main p := h.reaches_last _ h.main_mem

/-- An import of a file on the trail closes a circle. -/
theorem cyclic (h : P.Trail ps p) (hq : P.Imports p q) (hmem : q ∈ ps) : P.Cyclic :=
  ⟨p, h.reaches, .head' hq (h.reaches_last q hmem)⟩

end Trail

/-! ## Checking a program -/

variable (P)

def allowsImport (files : List Path) (p : Path) (names : List Ident) (path : Text) : Bool :=
  match P.target p path with
  | .error _ => false
  | .ok q =>
    match P.host.disk.isFile q, P.program? q with
    | .ok true, some program =>
      files.contains q && names.all (program.flatMap Stmt.exported).contains
    | _, _ => false

def allows (depth : Nat) (files : List Path) (p : Path) : Stmt → Bool
  | .imports _ names path => P.allowsImport files p names path
  | s => s.importFreeTo depth

/-- Whether the given files, the main file among them, import only each other, and as they should. -/
def importableWithin (depth : Nat) (files : List Path) : Bool :=
  files.contains P.main && files.all fun p =>
    match P.program? p with
    | some program => program.all (P.allows depth files p)
    | none => false

variable {P} {depth : Nat} {files : List Path}

theorem resolves_of_allowsImport {names : List Ident} {path : Text}
    (h : P.allowsImport files p names path = true) : ∃ q ∈ files, P.Resolves p names path q := by
  unfold allowsImport at h
  split at h
  · cases h
  · rename_i q ht
    split at h
    · rename_i program hfile hprogram
      simp only [Bool.and_eq_true, List.contains_iff_mem, List.all_eq_true] at h
      exact ⟨q, h.1, ht, hfile, program, hprogram, h.2⟩
    · cases h

theorem stmt_of_allows {s : Stmt} (h : P.allows depth files p s = true) :
    ImportFree s ∨
      ∃ l names path, s = .imports l names path ∧ ∃ q ∈ files, P.Resolves p names path q := by
  cases s with
  | imports l names path => exact .inr ⟨l, names, path, rfl, resolves_of_allowsImport h⟩
  | _ => exact .inl (.of_importFreeTo h)

theorem importable_of_importableWithin (depth : Nat) (files : List Path)
    (h : P.importableWithin depth files = true) :
    P.Importable := by
  unfold importableWithin at h
  rw [Bool.and_eq_true, List.contains_iff_mem, List.all_eq_true] at h
  obtain ⟨hmain, hall⟩ := h
  have hfile : ∀ p ∈ files, ∃ program, P.program? p = some program ∧
      ∀ s ∈ program, P.allows depth files p s = true := by
    intro p hp
    have h := hall p hp
    split at h
    · rename_i program hprogram
      exact ⟨program, hprogram, List.all_eq_true.mp h⟩
    · cases h
  have hreach : ∀ p, P.Reaches P.main p → p ∈ files := by
    intro p hp
    induction hp with
    | refl => exact hmain
    | @tail p q _ hq ih =>
      obtain ⟨i, program, l, names, path, hprogram, hi, ht⟩ := hq
      obtain ⟨program', hprogram', hs⟩ := hfile p ih
      rw [hprogram] at hprogram'
      cases hprogram'
      obtain ⟨r, hr, hres⟩ := resolves_of_allowsImport (hs _ (List.mem_of_getElem? hi))
      rw [hres.target] at ht
      cases ht
      exact hr
  refine ⟨?_, fun {p program s} hp hprogram hs => ?_⟩
  · obtain ⟨program, hprogram, -⟩ := hfile _ hmain
    exact ⟨program, hprogram⟩
  · obtain ⟨program', hprogram', hall⟩ := hfile p (hreach p hp)
    rw [hprogram] at hprogram'
    cases hprogram'
    rcases stmt_of_allows (hall s hs) with hfree | ⟨l, names, path, he, q, -, hq⟩
    · exact .inl hfree
    · exact .inr ⟨l, names, path, q, he, hq⟩

end Project

end ModuleScript
