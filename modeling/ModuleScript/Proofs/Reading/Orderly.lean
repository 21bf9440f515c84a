import ModuleScript.Proofs.Names
import ModuleScript.Proofs.Reading.Closure

/-!
# Programs that are read are orderly

A block with a declaration is refused, so declarations stand only at the top of a program and
directly in module bodies. This comes with every property of nodes that the grammar keeps.
-/

set_option autoImplicit false

namespace ModuleScript

/-- A property that a node has if its parts and members do, its parts are no declarations and, for an
import, it is well placed; and that it passes on to its parts. -/
structure Nodewise (S : Stmt → Prop) (L : Location → Prop) : Prop where
  node : ∀ {s}, (∀ t ∈ s.parts, t.isDeclaration = false) → (∀ t ∈ s.parts, S t) →
    (∀ t ∈ s.members, S t) → (∀ l ns path, s = .imports l ns path → L l) → S s
  part : ∀ {s t}, S s → t ∈ s.parts → S t
  part_isDeclaration : ∀ {s t}, S s → t ∈ s.parts → t.isDeclaration = false

theorem mem_parts_of_arm {E : Expr → Prop} {a : Arm} (ha : a.All E) :
    ∀ t ∈ a.parts, ∃ e, t = .expr e ∧ E e := by
  obtain ⟨l, binder, guard, body⟩ := a
  obtain ⟨hg, hb⟩ := ha
  intro t ht
  rcases List.mem_append.mp ht with ht | ht
  · obtain ⟨g, hgm, rfl⟩ := Option.map_eq_some_iff.mp (Option.mem_toList.mp ht)
    exact ⟨g, rfl, hg g hgm⟩
  · rw [List.mem_singleton.mp ht]
    exact ⟨body, rfl, hb⟩

theorem mem_map_expr {E : Expr → Prop} {es : List Expr} (h : ∀ e ∈ es, E e) :
    ∀ t ∈ es.map Stmt.expr, ∃ e, t = .expr e ∧ E e := by
  intro t ht
  obtain ⟨e, he, rfl⟩ := List.mem_map.mp ht
  exact ⟨e, rfl, h e he⟩

theorem Expr.parts_named (n : Ident) (e : Expr) : (e.named n).parts = e.parts := by
  unfold Expr.named
  split
  · rfl
  · rfl

namespace Nodewise

variable {S : Stmt → Prop} {L : Location → Prop} (hS : Nodewise S L)

include hS

/-- An expression has the property if its parts are expressions that have it. -/
theorem expr {e : Expr} (h : ∀ t ∈ e.parts, ∃ e', t = .expr e' ∧ S (.expr e')) : S (.expr e) := by
  refine hS.node (fun t ht => ?_) (fun t ht => ?_) (fun _ ht => by cases ht) nofun
  · obtain ⟨e', rfl, -⟩ := h t ht
    rfl
  · obtain ⟨e', rfl, he⟩ := h t ht
    exact he

theorem leaf {e : Expr} (h : e.parts = []) : S (.expr e) :=
  hS.expr fun t ht => by rw [h] at ht; cases ht

/-- So does a statement with one expression as its only part. -/
theorem single {s : Stmt} {e : Expr} (hp : s.parts = [.expr e]) (hm : s.members = [])
    (hi : ∀ l ns path, s ≠ .imports l ns path) (h : S (.expr e)) : S s := by
  refine hS.node ?_ ?_ ?_ fun l ns path hs => absurd hs (hi l ns path)
  · rw [hp]
    exact fun t ht => by rw [List.mem_singleton.mp ht]; rfl
  · rw [hp]
    exact fun t ht => by rwa [List.mem_singleton.mp ht]
  · rw [hm]
    exact fun _ ht => by cases ht

theorem named {e : Expr} (n : Ident) (h : S (.expr e)) : S (.expr (e.named n)) := by
  refine hS.node (fun t ht => ?_) (fun t ht => ?_) (fun _ ht => by cases ht) nofun
  · rw [Stmt.parts, Expr.parts_named] at ht
    exact hS.part_isDeclaration h ht
  · rw [Stmt.parts, Expr.parts_named] at ht
    exact hS.part h ht

theorem applied {f : Expr} {es : List Expr} (hf : S (.expr f)) (hes : ∀ e ∈ es, S (.expr e)) :
    S (.expr (f.applied es)) := by
  have hcall : ∀ l, S (.expr (.call l f es)) := by
    intro l
    refine hS.expr fun t ht => ?_
    rcases List.mem_cons.mp ht with rfl | ht
    · exact ⟨f, rfl, hf⟩
    · exact mem_map_expr hes t ht
  unfold Expr.applied
  split
  · split
    · rename_i l elements _
      have hlist : S (.expr (.list l elements)) := hes _ (.head _)
      exact hS.node (fun _ ht => hS.part_isDeclaration hlist ht) (fun _ ht => hS.part hlist ht)
        (fun _ ht => by cases ht) nofun
    · exact hcall _
  · exact hcall _

/-- The grammar builds only nodes with the property. -/
theorem closed : Reader.Closed (fun e => S (.expr e)) S L where
  constant _ _ := hS.leaf rfl
  unit _ := hS.leaf rfl
  name _ _ := hS.leaf rfl
  dotted _ _ := hS.leaf rfl
  list _ _ h := hS.expr (mem_map_expr h)
  range l a b ha hb := by
    refine hS.expr fun t ht => ?_
    have ht : t = .expr a ∨ t = .expr b := by simpa [Expr.parts] using ht
    rcases ht with rfl | rfl
    · exact ⟨a, rfl, ha⟩
    · exact ⟨b, rfl, hb⟩
  comprehension l a x b o ha hb ho := by
    refine hS.expr fun t ht => ?_
    have ht : t = .expr a ∨ t = .expr b ∨ ∃ e, o = some e ∧ Stmt.expr e = t := by
      simpa [Expr.parts] using ht
    rcases ht with rfl | rfl | ⟨e, he, rfl⟩
    · exact ⟨a, rfl, ha⟩
    · exact ⟨b, rfl, hb⟩
    · exact ⟨e, rfl, ho e he⟩
  unary _ _ _ h := hS.single rfl rfl nofun h
  binary l op a b ha hb := by
    refine hS.expr fun t ht => ?_
    have ht : t = .expr a ∨ t = .expr b := by simpa [Expr.parts] using ht
    rcases ht with rfl | rfl
    · exact ⟨a, rfl, ha⟩
    · exact ⟨b, rfl, hb⟩
  binding _ n _ h := hS.single rfl rfl nofun (hS.named n h)
  lambda _ _ _ _ h := hS.single rfl rfl nofun h
  applied _ _ hf hes := hS.applied hf hes
  cond l a b c ha hb hc := by
    refine hS.expr fun t ht => ?_
    have ht : t = .expr a ∨ t = .expr b ∨ t = .expr c := by simpa [Expr.parts] using ht
    rcases ht with rfl | rfl | rfl
    · exact ⟨a, rfl, ha⟩
    · exact ⟨b, rfl, hb⟩
    · exact ⟨c, rfl, hc⟩
  select l e arms he ha := by
    refine hS.expr fun t ht => ?_
    rcases List.mem_cons.mp ht with rfl | ht
    · exact ⟨e, rfl, he⟩
    · obtain ⟨a, hm, hta⟩ := List.mem_flatMap.mp ht
      exact mem_parts_of_arm (ha a hm) t hta
  block _ _ hd h := hS.node hd h (fun _ ht => by cases ht) nofun
  expr _ h := h
  publicBinding _ n _ h := hS.single rfl rfl nofun (hS.named n h)
  variation _ _ _ _ _ _ h := hS.single rfl rfl nofun (hS.part h (.head _))
  module _ _ _ _ h := hS.node (fun _ ht => by cases ht) (fun _ ht => by cases ht) h nofun
  imports l _ _ hl := by
    refine hS.node (fun _ ht => by cases ht) (fun _ ht => by cases ht) (fun _ ht => by cases ht) ?_
    rintro _ _ _ ⟨⟩
    exact hl

end Nodewise

theorem nodewise_orderly : Nodewise Orderly fun _ => True where
  node hd hp hm _ := .node hd hp hm
  part := Orderly.part
  part_isDeclaration := Orderly.part_isDeclaration

/-- Every program that is read is orderly. -/
theorem orderly_of_read {h : Host} {file source : Text} {program : Program}
    (hr : h.read file source = .ok program) : ∀ s ∈ program, Orderly s :=
  Reader.readProgram_all nodewise_orderly.closed (fun _ _ => trivial) (program_of_read hr)

end ModuleScript
