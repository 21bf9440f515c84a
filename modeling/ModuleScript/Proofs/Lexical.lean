import ModuleScript.Program.Expr
import ModuleScript.Store.Visibility

/-!
# Lexical structure

The nodes of a program and the module in whose body each of them stands. A node stands directly in
the innermost module declaration around it; a program is orderly when declarations stand only at its
top and directly in module bodies.
-/

set_option autoImplicit false

namespace ModuleScript

def Arm.parts : Arm → List Stmt
  | .mk _ _ guard body => (guard.map Stmt.expr).toList ++ [.expr body]

def Arm.binder : Arm → Ident
  | .mk _ binder _ _ => binder

def Expr.parts : Expr → List Stmt
  | .constant _ _ | .unit _ | .name _ _ | .dotted _ _ => []
  | .list _ elements => elements.map .expr
  | .range _ first stop => [.expr first, .expr stop]
  | .comprehension _ element _ iterable condition =>
    .expr element :: .expr iterable :: (condition.map Stmt.expr).toList
  | .unary _ _ operand => [.expr operand]
  | .binary _ _ left right => [.expr left, .expr right]
  | .binding _ _ initializer => [.expr initializer]
  | .lambda _ _ _ body => [.expr body]
  | .call _ callee arguments => .expr callee :: arguments.map .expr
  | .cond _ condition yes no => [.expr condition, .expr yes, .expr no]
  | .select _ subject arms => .expr subject :: arms.flatMap Arm.parts
  | .block _ statements => statements
  | .sequence _ elements => elements.map .expr

/-- The names that an expression uses or binds itself, those of the nodes below it left out. -/
def Expr.mentions : Expr → List Ident
  | .name _ n => [n]
  | .dotted _ names => names
  | .comprehension _ _ binder _ _ => [binder]
  | .binding _ n _ => [n]
  | .lambda _ _ params _ => params
  | .select _ _ arms => arms.map Arm.binder
  | _ => []

namespace Stmt

/-- The nodes directly below a statement that stand in the same module. -/
def parts : Stmt → List Stmt
  | .expr e => e.parts
  | .publicBinding _ _ initializer => [.expr initializer]
  | .variation _ _ _ _ body => [.expr body]
  | .module _ _ _ _ | .imports _ _ _ => []

/-- The nodes directly below a statement that run in the very scope that it runs in. -/
def inPlace : Stmt → List Stmt
  | .expr (.comprehension _ _ _ iterable _) => [.expr iterable]
  | .expr (.select _ subject _) => [.expr subject]
  | .expr (.lambda _ _ _ _) | .expr (.block _ _) | .expr (.sequence _ _)
  | .variation _ _ _ _ _ => []
  | s => s.parts

theorem mem_parts_of_inPlace {s t : Stmt} (h : t ∈ s.inPlace) : t ∈ s.parts := by
  cases s with
  | expr e =>
    cases e with
    | comprehension l element binder iterable condition =>
      obtain rfl := List.mem_singleton.mp h
      exact .tail _ (.head _)
    | select l subject arms =>
      obtain rfl := List.mem_singleton.mp h
      exact .head _
    | lambda | block | sequence => cases h
    | _ => exact h
  | variation => cases h
  | _ => exact h

def members : Stmt → List Stmt
  | .module _ _ _ body => body
  | _ => []

def mentions : Stmt → List Ident
  | .expr e => e.mentions
  | .publicBinding _ n _ => [n]
  | .variation _ n _ params _ => n :: params
  | .module _ _ n _ => [n]
  | .imports _ names _ => names

/-- The names that a statement binds where it runs, each with whether it is public. -/
def binds : Stmt → List (Ident × Bool)
  | .expr (.binding _ n _) => [(n, false)]
  | .publicBinding _ n _ => [(n, true)]
  | .imports _ names _ => names.map (·, false)
  | _ => []

/-- Whether nodes below the statement run in a frame that is made for it in the scope around. -/
def opens : Stmt → Bool
  | .expr (.comprehension _ _ _ _ _) | .expr (.select _ _ _) | .expr (.block _ _)
  | .expr (.sequence _ _) => true
  | _ => false

def isModule : Stmt → Bool
  | .module _ _ _ _ => true
  | _ => false

def isVariation : Stmt → Bool
  | .variation _ _ _ _ _ => true
  | _ => false

theorem isDeclaration_of_isModule {s : Stmt} (h : s.isModule = true) : s.isDeclaration = true := by
  cases s <;> first | rfl | cases h

theorem mem_mentions_of_binds {s : Stmt} {n : Ident} {isPublic : Bool}
    (h : (n, isPublic) ∈ s.binds) : n ∈ s.mentions := by
  cases s with
  | expr e =>
    cases e with
    | binding l x initializer => simp_all [binds, mentions, Expr.mentions]
    | _ => cases h
  | publicBinding l x initializer => simp_all [binds, mentions]
  | variation l x l' params body => cases h
  | module l isPublic x body => cases h
  | imports l names path =>
    obtain ⟨x, hx, he⟩ := List.mem_map.mp h
    rwa [← (Prod.mk.inj he).1]

end Stmt

/-- The path of a module declared under a name in the code of a module, or at the top of a source. -/
def ModulePath.below (source : Text) : Option ModulePath → Ident → ModulePath
  | some path, name => path.child name
  | none, name => ⟨source, [name]⟩

/-- `Within source code s inner t`: if `s` stands in the module `code`, or in none, then `t` is `s`
or a node below it and stands in `inner`. -/
inductive Within (source : Text) : Option ModulePath → Stmt → Option ModulePath → Stmt → Prop where
  | refl (code : Option ModulePath) (s : Stmt) : Within source code s code s
  | part {code inner : Option ModulePath} {s u t : Stmt} : u ∈ s.parts →
      Within source code u inner t → Within source code s inner t
  | member {code inner : Option ModulePath} {l : Location} {isPublic : Bool} {name : Ident}
      {body : List Stmt} {u t : Stmt} : u ∈ body →
      Within source (some (.below source code name)) u inner t →
      Within source code (.module l isPublic name body) inner t

/-- A node of a program and the module it stands in. -/
def LiesIn (source : Text) (program : Program) (code : Option ModulePath) (t : Stmt) : Prop :=
  ∃ s ∈ program, Within source none s code t

theorem Within.trans {source : Text} {a b c : Option ModulePath} {s t u : Stmt}
    (hst : Within source a s b t) (htu : Within source b t c u) : Within source a s c u := by
  induction hst with
  | refl => exact htu
  | part hm _ ih => exact .part hm (ih htu)
  | member hm _ ih => exact .member hm (ih htu)

/-- Nowhere below, a declaration stands anywhere but directly in a module body. -/
inductive Orderly : Stmt → Prop where
  | node {s : Stmt} : (∀ t ∈ s.parts, t.isDeclaration = false) → (∀ t ∈ s.parts, Orderly t) →
      (∀ t ∈ s.members, Orderly t) → Orderly s

namespace Orderly

variable {s t : Stmt}

theorem part (h : Orderly s) (ht : t ∈ s.parts) : Orderly t := by
  obtain ⟨_, hp, _⟩ := h
  exact hp t ht

theorem part_isDeclaration (h : Orderly s) (ht : t ∈ s.parts) : t.isDeclaration = false := by
  obtain ⟨hd, _, _⟩ := h
  exact hd t ht

theorem part_isModule (h : Orderly s) (ht : t ∈ s.parts) : t.isModule = false := by
  cases hm : t.isModule with
  | false => rfl
  | true => rw [← h.part_isDeclaration ht, Stmt.isDeclaration_of_isModule hm]

theorem member (h : Orderly s) (ht : t ∈ s.members) : Orderly t := by
  obtain ⟨_, _, hm⟩ := h
  exact hm t ht

theorem within {source : Text} {code inner : Option ModulePath} (h : Orderly s)
    (ht : Within source code s inner t) : Orderly t := by
  induction ht with
  | refl => exact h
  | part hu _ ih => exact ih (h.part hu)
  | member hu _ ih => exact ih (h.member hu)

end Orderly

end ModuleScript
