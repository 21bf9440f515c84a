import ModuleScript.Proofs.Reading.Orderly

/-!
# Imports know the file they stand in

Every token of a source is located in that source, and an import is named after its first token. So
in a program that is read all imports are located in the source, however deep they stand.
-/

set_option autoImplicit false

namespace ModuleScript

/-! ## Tokens -/

theorem Location.file_after (l : Location) (c : CodePoint) : (l.after c).file = l.file := by
  unfold Location.after
  split <;> rfl

theorem Scan.file_of_mem_tokensFrom {skip : Nat} {l : Location} {source : Text} {t : Token}
    (ht : t ∈ (Scan.tokensFrom skip l source).1) : t.location.file = l.file := by
  induction source generalizing skip l with
  | nil =>
    cases skip <;> cases ht
  | cons c rest ih =>
    have hrest : ∀ {n}, t ∈ (Scan.tokensFrom n (l.after c) rest).1 → t.location.file = l.file :=
      fun h => (ih h).trans (l.file_after c)
    cases skip with
    | succ skip => exact hrest ht
    | zero =>
      unfold Scan.tokensFrom at ht
      dsimp only at ht
      split at ht
      · exact hrest ht
      · rename_i kind n _
        have ht : t ∈ ⟨kind, l⟩ :: (Scan.tokensFrom n (l.after c) rest).1 := ht
        rcases List.mem_cons.mp ht with rfl | ht
        · rfl
        · exact hrest ht
      · cases ht
      · cases ht

theorem Layout.significant_sublist (awaited : List Mark) (last : Option Token.Kind)
    (ts : List Token) : (Layout.significant awaited last ts).Sublist ts := by
  induction ts generalizing awaited last with
  | nil => exact List.Sublist.refl []
  | cons t rest ih =>
    unfold Layout.significant
    split
    · exact (ih awaited last).cons t
    · exact (ih _ _).cons_cons t

theorem file_of_mem_tokenize {file source : Text} {t : Token}
    (ht : t ∈ (tokenize file source).1) : t.location.file = file :=
  Scan.file_of_mem_tokensFrom ((Layout.significant_sublist [] none _).mem ht)

/-! ## Nodes -/

/-- All imports in the statement are located in the file. -/
inductive Placed (file : Text) : Stmt → Prop where
  | node {s : Stmt} : (∀ l ns path, s = .imports l ns path → l.file = file) →
      (∀ t ∈ s.parts, Placed file t) → (∀ t ∈ s.members, Placed file t) → Placed file s

namespace Placed

variable {file : Text} {s t : Stmt}

theorem location {l : Location} {ns : List Ident} {path : Text}
    (h : Placed file (.imports l ns path)) : l.file = file := by
  obtain ⟨hl, -, -⟩ := h
  exact hl l ns path rfl

theorem part (h : Placed file s) (ht : t ∈ s.parts) : Placed file t := by
  obtain ⟨-, hp, -⟩ := h
  exact hp t ht

theorem member (h : Placed file s) (ht : t ∈ s.members) : Placed file t := by
  obtain ⟨-, -, hm⟩ := h
  exact hm t ht

theorem within {source : Text} {code inner : Option ModulePath} (h : Placed file s)
    (ht : Within source code s inner t) : Placed file t := by
  induction ht with
  | refl => exact h
  | part hu _ ih => exact ih (h.part hu)
  | member hu _ ih => exact ih (h.member hu)

end Placed

theorem nodewise_placed (file : Text) :
    Nodewise (fun s => Orderly s ∧ Placed file s) fun l => l.file = file where
  node hd hp hm hl := ⟨.node hd (fun t ht => (hp t ht).1) fun t ht => (hm t ht).1,
    .node hl (fun t ht => (hp t ht).2) fun t ht => (hm t ht).2⟩
  part h ht := ⟨h.1.part ht, h.2.part ht⟩
  part_isDeclaration h ht := h.1.part_isDeclaration ht

/-- All imports of a program that is read are located in its source. -/
theorem placed_of_read {h : Host} {file source : Text} {program : Program}
    (hr : h.read file source = .ok program) : ∀ s ∈ program, Placed file s := fun s hs =>
  (Reader.readProgram_all (nodewise_placed file).closed (fun _ => file_of_mem_tokenize)
    (program_of_read hr) s hs).2

end ModuleScript
