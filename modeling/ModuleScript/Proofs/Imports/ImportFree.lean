import ModuleScript.Proofs.Conduct.Runs
import ModuleScript.Proofs.Imports.Kinds

/-!
# Code without imports

Where neither the code nor any function on the machine has an import in it, no file is loaded. Such
code does not fail as an import does, and all functions it makes are without imports again.
-/

set_option autoImplicit false

namespace ModuleScript

open Eval

/-- No import stands anywhere in the statement. -/
inductive ImportFree : Stmt → Prop where
  | node {s : Stmt} : s.isImport = false → (∀ t ∈ s.parts, ImportFree t) →
      (∀ t ∈ s.members, ImportFree t) → ImportFree s

/-- Looks for imports so many levels deep. -/
def Stmt.importFreeTo : Nat → Stmt → Bool
  | 0, _ => false
  | depth + 1, s =>
    !s.isImport && s.parts.all (importFreeTo depth) && s.members.all (importFreeTo depth)

namespace ImportFree

variable {s t : Stmt}

theorem not_import (h : ImportFree s) : s.isImport = false := by
  obtain ⟨hs, -, -⟩ := h
  exact hs

theorem part (h : ImportFree s) (ht : t ∈ s.parts) : ImportFree t := by
  obtain ⟨-, hp, -⟩ := h
  exact hp t ht

theorem member (h : ImportFree s) (ht : t ∈ s.members) : ImportFree t := by
  obtain ⟨-, -, hm⟩ := h
  exact hm t ht

theorem of_importFreeTo {depth : Nat} (h : s.importFreeTo depth = true) : ImportFree s := by
  induction depth generalizing s with
  | zero => cases h
  | succ depth ih =>
    unfold Stmt.importFreeTo at h
    simp only [Bool.and_eq_true, Bool.not_eq_true', List.all_eq_true] at h
    obtain ⟨⟨hs, hp⟩, hm⟩ := h
    exact .node hs (fun t ht => ih (hp t ht)) fun t ht => ih (hm t ht)

/-- A function without imports. -/
def Function (f : Closure) : Prop := ∀ v ∈ f.variants, ImportFree (.expr v.body)

end ImportFree

/-- All functions that are bound or exported anywhere are without imports. -/
abbrev Machine.ImportFree (m : Machine) : Prop := m.Holds (Value.Carries ImportFree.Function)

/-- No file is loaded. -/
def importFree (loaded : List (Path × Exports)) (loading : List Path) : Conduct where
  World := Unit
  Later _ _ := True
  later_refl _ := trivial
  later_trans _ _ := trivial
  Fits _ m := m.ImportFree ∧ m.loaded = loaded ∧ m.loading = loading
  Good _ := ImportFree.Function
  Serves _ _ := True
  Code _ _ s := ImportFree s
  Here _ _ := True
  Varies := True
  good_later _ h := h
  serves_later _ h := h
  code_later _ h := h
  here_later _ h := h
  code_site _ := trivial
  code_part hs ht := hs.part ht
  holds hm := hm.1
  writable _ _ := ⟨trivial, fun _ _ => trivial, fun _ => trivial⟩
  erasable _ _ _ := trivial
  change hm hc := ⟨hc.holds hm.1, hc.loaded ▸ hm.2.1, hc.loading ▸ hm.2.2⟩
  enter hm hs _ hf := ⟨⟨⟩, trivial, ⟨hm.1.pushFrame hf.good, hm.2⟩, fun _ ht => hs.part ht⟩
  call hm hf hv _ hg := ⟨⟨⟩, trivial, ⟨hm.1.pushFrame hg.good, hm.2⟩, hf _ hv⟩
  lambda {_ m _ _ _ _ _} hm hs := by
    refine ⟨⟨⟩, trivial, ⟨hm.1.of_exporting rfl rfl (hm.1.exporting.of_eq rfl rfl), hm.2⟩, ?_⟩
    exact List.forall_mem_singleton.mpr (hs.part (.head _))
  vary _ hm hs _ hf _ := by
    refine ⟨⟨⟩, trivial, ⟨hm.1.of_exporting rfl rfl (hm.1.exporting.of_eq rfl rfl), hm.2⟩, ?_,
      fun _ _ => trivial, fun _ => trivial, fun _ _ => trivial⟩
    exact List.forall_mem_append.mpr ⟨hf, List.forall_mem_singleton.mpr (hs.part (.head _))⟩
  register hm _ hr := by
    obtain ⟨-, -, -, rfl⟩ := Machine.register_eq_ok hr
    refine ⟨⟨⟩, trivial, ⟨hm.1.pushRecord (fun vis => ?_) _, hm.2⟩, trivial, trivial⟩
    cases vis <;> rfl
  enterModule hm hs _ _ _ _ := by
    refine ⟨⟨⟩, trivial, ⟨hm.1.pushFrame ?_, hm.2⟩,
      .of_code (fun _ => trivial) (fun _ h => h) fun _ ht => hs.member ht⟩
    intro _ _ hv
    cases hv

namespace ImportFree

variable {h : Host} {m m' : Machine} {c : Context} {s : Stmt} {loaded : List (Path × Exports)}
  {loading : List Path}

theorem imports : (importFree loaded loading).Imports h := by
  rintro self self' hf w c c' l names path ⟨-, hc⟩
  cases hc.not_import

/-- Where code without imports ends, the same files are loaded and being loaded as before. -/
structure Idle (m m' : Machine) : Prop where
  importFree : m'.ImportFree
  loaded : m'.loaded = m.loaded
  loading : m'.loading = m.loading

theorem Idle.trans {m₁ m₂ : Machine} (h : Idle m m₁) (h' : Idle m₁ m₂) : Idle m m₂ :=
  ⟨h'.importFree, h'.loaded.trans h.loaded, h'.loading.trans h.loading⟩

theorem changes_idle {here : Place → Prop} (hm : m.ImportFree)
    (h : m.Changes (Value.Carries Function) here m') : Idle m m' := by
  induction h with
  | refl => exact ⟨hm, rfl, rfl⟩
  | tail _ hc ih => exact ih.trans ⟨hc.holds ih.importFree, hc.loaded, hc.loading⟩

/-- To bind names that are all exported loads nothing and succeeds. -/
theorem bindImports_idle (c : Context) (path : Text) {e : Exports}
    (he : ∀ n v, (n, v) ∈ e → v.Carries Function) {names : List Ident} (hm : m.ImportFree)
    (hnames : ∀ n ∈ names, e.has n = true) :
    ∃ m', bindImports c path e names m = .ok ⟨⟩ m' ∧ Idle m m' := by
  induction names generalizing m with
  | nil => exact ⟨m, rfl, hm, rfl, rfl⟩
  | cons n names ih =>
    have hn := hnames n (.head _)
    rw [Bindings.has_eq_isSome] at hn
    obtain ⟨v, hv⟩ := Option.isSome_iff_exists.mp hn
    have hwrite : m.Writable (fun _ => True) c := ⟨trivial, fun _ _ => trivial, fun _ => trivial⟩
    obtain ⟨k, hd, hk⟩ := Machine.define_changes hwrite n (he n v (Bindings.mem_of_get? hv)) false
    have hidle := changes_idle hm hk
    obtain ⟨m', hb, hm'⟩ := ih hidle.importFree fun x hx => hnames x (.tail _ hx)
    refine ⟨m', ?_, hidle.trans hm'⟩
    unfold bindImports
    rw [hv]
    exact (bind_of_ok hd).trans hb

theorem stmt_idle (hm : m.ImportFree) (hs : ImportFree s) (depth : Nat) :
    Idle m (endOf (run h depth (.eval c s) m)) := by
  have hfits : (importFree m.loaded m.loading).Fits ⟨⟩ m := ⟨hm, rfl, rfl⟩
  have ht : (importFree m.loaded m.loading).Allows ⟨⟩ (.eval c s) := hs
  obtain ⟨-, -, hend, hl, hl'⟩ := Conduct.run_fits imports trivial hfits ht depth
  exact ⟨hend, hl, hl'⟩

theorem stmts_idle (hm : m.ImportFree) {ss : List Stmt} (hs : ∀ s ∈ ss, ImportFree s)
    (depth : Nat) : Idle m (endOf ((run h depth).stmts c ss m)) := by
  have hfits : (importFree m.loaded m.loading).Fits ⟨⟩ m := ⟨hm, rfl, rfl⟩
  have hrun : (importFree m.loaded m.loading).actions.Follows (run h depth) (run h depth) :=
    Conduct.run_follows imports trivial depth
  have hcode : ∀ s ∈ ss, (importFree m.loaded m.loading).actions.Code ⟨⟩ c c s :=
    fun s hmem => ⟨rfl, hs s hmem⟩
  have hagree := Actions.stmts_agree hrun hcode
  obtain ⟨-, -, hend, hl, hl'⟩ :=
    (Conduct.ends_eq hagree (fun _ _ _ => Value.eq_of_only) hfits).2
  exact ⟨hend, hl, hl'⟩

theorem stmt_harmless (hm : m.ImportFree) (hs : ImportFree s) {depth : Nat} {e : Failure}
    (he : run h depth (.eval c s) m = .error e m') : ¬ e.OfImport := by
  have hfits : (importFree m.loaded m.loading).Fits ⟨⟩ m := ⟨hm, rfl, rfl⟩
  have ht : (importFree m.loaded m.loading).Allows ⟨⟩ (.eval c s) := hs
  have hnone : Throughout h depth (fun t _ => t.isImport = false) (fun self => self (.eval c s)) m := by
    refine Conduct.throughout_task imports trivial (fun _ _ t _ ht => ?_) hfits ht depth
    cases t with
    | eval c s => exact ImportFree.not_import ht
    | apply | ask | wait => rfl
  have he' := hnone fun _ => throw .tooDeep
  dsimp only at he'
  rw [he] at he'
  exact harmless_watched h depth (.eval c s) m e m' he'

end ImportFree

end ModuleScript
