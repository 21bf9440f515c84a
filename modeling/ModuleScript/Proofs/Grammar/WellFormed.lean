import ModuleScript.Proofs.Grammar.Exact
import ModuleScript.Proofs.Reading.Orderly

/-!
# Programs that are read are well formed

What the grammar does not say of a node by its shape alone: where declarations and other statements
may stand, what a function takes its name from, which lists have members, and that every node is
located at a token. An action of the grammar looks at the parts of one node only, so each of these
facts is kept by every production, up to the place that a node has in the one above it.
-/

set_option autoImplicit false

namespace ModuleScript

namespace Stmt

/-- The name that a node binds the value of its only part to. -/
def boundName? : Stmt → Option Ident
  | .expr (.binding _ n _) | .publicBinding _ n _ => some n
  | _ => none

/-- Whether the nodes below stand as statements of their own. -/
def holdsStatements : Stmt → Bool
  | .expr (.block _ _) | .module _ _ _ _ => true
  | _ => false

/-- All nodes directly below a node. The function of a variation belongs to the node itself. -/
def children (s : Stmt) : List Stmt := s.parts ++ s.members

end Stmt

def Arm.location : Arm → Location
  | .mk l _ _ _ => l

/-- The locations of a node, of the function of a variation and of the arms of a match. -/
def Stmt.locations : Stmt → List Location
  | .variation l _ l' _ _ => [l, l']
  | .expr (.select l _ arms) => l :: arms.map Arm.location
  | s => [s.location]

/-- What is asked of a node directly below another, or at the top. Nothing is asked of what a variation
holds: its parameters and its body are parts of the node itself, so that it is a function by its
shape. -/
def Stmt.Permitted (parent : Option Stmt) : Stmt → Prop
  | .expr (.lambda _ name params _) => params.Nodup ∧ name = parent.bind Stmt.boundName?
  | .expr (.select _ _ arms) => arms ≠ []
  | .expr (.call _ callee arguments) =>
    ¬ ∃ l l' elements, callee = .name l "seq" ∧ arguments = [.list l' elements]
  | .expr _ => True
  | .variation _ _ _ params _ => (∀ p ∈ parent, p.holdsStatements = true) ∧ params.Nodup
  | .imports _ names _ => (∀ p ∈ parent, p.holdsStatements = true) ∧ names ≠ []
  | .publicBinding _ _ _ | .module _ _ _ _ => ∀ p ∈ parent, p.isModule = true

/-- A node of a program with the nodes above it, innermost first. -/
inductive Occurs (program : Program) : List Stmt → Stmt → Prop where
  | top {s : Stmt} : s ∈ program → Occurs program [] s
  | child {above : List Stmt} {s t : Stmt} : Occurs program above s → t ∈ s.children →
    Occurs program (s :: above) t

/-- A node below the given one, and all below it, are permitted and have locations in `T`. -/
inductive Sound (T : Location → Prop) : Option Stmt → Stmt → Prop where
  | node {parent : Option Stmt} {s : Stmt} : s.Permitted parent → (∀ l ∈ s.locations, T l) →
    (∀ t ∈ s.children, Sound T (some s) t) → Sound T parent s

namespace Sound

variable {T : Location → Prop} {parent : Option Stmt} {s t : Stmt}

theorem permitted (h : Sound T parent s) : s.Permitted parent := by
  obtain ⟨hp, -, -⟩ := h
  exact hp

theorem locations (h : Sound T parent s) : ∀ l ∈ s.locations, T l := by
  obtain ⟨-, hl, -⟩ := h
  exact hl

theorem child (h : Sound T parent s) (ht : t ∈ s.children) : Sound T (some s) t := by
  obtain ⟨-, -, hc⟩ := h
  exact hc t ht

/-- Elsewhere a node need only be permitted there; what is below it stays where it is. -/
theorem move {other : Option Stmt} (h : Sound T parent s) (hp : s.Permitted other) :
    Sound T other s :=
  .node hp h.locations fun _ ht => h.child ht

theorem boundName?_of_holdsStatements (h : s.holdsStatements = true) : s.boundName? = none := by
  cases s with
  | expr e => cases e <;> first | rfl | cases h
  | module l isPublic n body => rfl
  | _ => cases h

theorem expr_below {e : Expr} (h : Sound T none (.expr e)) (hs : s.boundName? = none) :
    Sound T (some s) (.expr e) := by
  refine h.move ?_
  have hp := h.permitted
  cases e with
  | lambda l name params body => exact ⟨hp.1, hp.2.trans hs.symm⟩
  | _ => exact hp

theorem statement_below (h : Sound T none t) (hs : s.holdsStatements = true)
    (hd : t.isDeclaration = true → s.isModule = true) : Sound T (some s) t := by
  have hhere : ∀ p ∈ some s, p.holdsStatements = true := by
    rintro p ⟨⟩
    exact hs
  have hmodule : t.isDeclaration = true → ∀ p ∈ some s, p.isModule = true := by
    rintro ht p ⟨⟩
    exact hd ht
  have hp := h.permitted
  cases t with
  | expr e => exact h.expr_below (boundName?_of_holdsStatements hs)
  | variation l n l' params body => exact h.move ⟨hhere, hp.2⟩
  | imports l names path => exact h.move ⟨hhere, hp.2⟩
  | publicBinding l n e => exact h.move (hmodule rfl)
  | module l isPublic n body => exact h.move (hmodule rfl)

/-- What is asked of a node depends on little of the one above it. -/
theorem alike {s' : Stmt} (h : Sound T (some s) t) (hn : s'.boundName? = s.boundName?)
    (hs : s'.holdsStatements = s.holdsStatements) (hm : s'.isModule = s.isModule) :
    Sound T (some s') t := by
  refine h.move ?_
  have hp := h.permitted
  cases t with
  | expr e =>
    cases e with
    | lambda l name params body => exact ⟨hp.1, hp.2.trans hn.symm⟩
    | _ => exact hp
  | variation l n l' params body =>
    refine ⟨?_, hp.2⟩
    rintro p ⟨⟩
    exact hs.trans (hp.1 s rfl)
  | imports l names path =>
    refine ⟨?_, hp.2⟩
    rintro p ⟨⟩
    exact hs.trans (hp.1 s rfl)
  | publicBinding l n e =>
    rintro p ⟨⟩
    exact hm.trans (hp s rfl)
  | module l isPublic n body =>
    rintro p ⟨⟩
    exact hm.trans (hp s rfl)

/-- An initializer that is a function takes the name of its binding. -/
theorem initializer_below {e : Expr} {n : Ident} (h : Sound T none (.expr e))
    (hs : s.boundName? = some n) : Sound T (some s) (.expr (e.named n)) := by
  have hp := h.permitted
  cases e with
  | lambda l name params body =>
    obtain ⟨hparams, rfl⟩ : params.Nodup ∧ name = none := hp
    exact .node ⟨hparams, hs.symm⟩ h.locations fun t ht => (h.child ht).alike rfl rfl rfl
  | _ => exact h.move hp

/-- An expression whose parts are expressions and that binds no name. -/
theorem of_parts {e : Expr} (hp : (Stmt.expr e).Permitted none)
    (hl : ∀ l ∈ (Stmt.expr e).locations, T l) (hb : (Stmt.expr e).boundName? = none)
    (h : ∀ t ∈ e.parts, ∃ e', t = .expr e' ∧ Sound T none (.expr e')) :
    Sound T none (.expr e) := by
  refine .node hp hl fun t ht => ?_
  obtain ⟨e', rfl, he⟩ := h t (by simpa [Stmt.children, Stmt.parts, Stmt.members] using ht)
  exact he.expr_below hb

theorem location {e : Expr} (h : Sound T parent (.expr e)) : T e.location := by
  have hl := h.locations
  cases e <;> exact hl _ (.head _)

/-! ## Constructs -/

section Constructs

variable {l : Location}

/-- A node whose parts are all expressions and which has no locations besides its own. -/
theorem of_exprs {e : Expr} (hp : (Stmt.expr e).Permitted none) (hl : T e.location)
    (hs : (Stmt.expr e).locations = [e.location]) (hb : (Stmt.expr e).boundName? = none)
    (es : List Expr) (hparts : e.parts = es.map .expr) (h : ∀ x ∈ es, Sound T none (.expr x)) :
    Sound T none (.expr e) := by
  refine .of_parts hp ?_ hb ?_
  · rw [hs]
    exact List.forall_mem_singleton.mpr hl
  · rw [hparts]
    exact mem_map_expr h

theorem leaf {e : Expr} (hp : (Stmt.expr e).Permitted none) (hl : T e.location)
    (hs : (Stmt.expr e).locations = [e.location]) (hb : (Stmt.expr e).boundName? = none)
    (h : e.parts = []) : Sound T none (.expr e) :=
  .of_exprs hp hl hs hb [] h nofun

theorem list {es : List Expr} (hl : T l) (h : ∀ e ∈ es, Sound T none (.expr e)) :
    Sound T none (.expr (.list l es)) :=
  .of_exprs trivial hl rfl rfl es rfl h

theorem unary {op : UnaryOp} {e : Expr} (hl : T l) (h : Sound T none (.expr e)) :
    Sound T none (.expr (.unary l op e)) :=
  .of_exprs trivial hl rfl rfl [e] rfl (List.forall_mem_singleton.mpr h)

theorem binary {op : BinaryOp} {a b : Expr} (hl : T l) (ha : Sound T none (.expr a))
    (hb : Sound T none (.expr b)) : Sound T none (.expr (.binary l op a b)) :=
  .of_exprs trivial hl rfl rfl [a, b] rfl
    (List.forall_mem_cons.mpr ⟨ha, List.forall_mem_singleton.mpr hb⟩)

theorem range {a b : Expr} (hl : T l) (ha : Sound T none (.expr a))
    (hb : Sound T none (.expr b)) : Sound T none (.expr (.range l a b)) :=
  .of_exprs trivial hl rfl rfl [a, b] rfl
    (List.forall_mem_cons.mpr ⟨ha, List.forall_mem_singleton.mpr hb⟩)

theorem cond {a b c : Expr} (hl : T l) (ha : Sound T none (.expr a))
    (hb : Sound T none (.expr b)) (hc : Sound T none (.expr c)) :
    Sound T none (.expr (.cond l a b c)) :=
  .of_exprs trivial hl rfl rfl [a, b, c] rfl
    (List.forall_mem_cons.mpr ⟨ha, List.forall_mem_cons.mpr ⟨hb, List.forall_mem_singleton.mpr hc⟩⟩)

theorem comprehension {e b : Expr} {x : Ident} {o : Option Expr} (hl : T l)
    (he : Sound T none (.expr e)) (hb : Sound T none (.expr b))
    (ho : ∀ c ∈ o, Sound T none (.expr c)) :
    Sound T none (.expr (.comprehension l e x b o)) := by
  refine .of_parts trivial (List.forall_mem_singleton.mpr hl) rfl ?_
  refine List.forall_mem_cons.mpr ⟨⟨e, rfl, he⟩, List.forall_mem_cons.mpr ⟨⟨b, rfl, hb⟩, ?_⟩⟩
  intro t ht
  obtain ⟨c, hc, rfl⟩ := Option.map_eq_some_iff.mp (Option.mem_toList.mp ht)
  exact ⟨c, rfl, ho c hc⟩

theorem lambda {ps : List Ident} {e : Expr} (hl : T l) (hps : ps.Nodup)
    (h : Sound T none (.expr e)) : Sound T none (.expr (.lambda l none ps e)) :=
  .of_exprs ⟨hps, rfl⟩ hl rfl rfl [e] rfl (List.forall_mem_singleton.mpr h)

/-- A binding of an initializer that takes the name, public or not. -/
theorem of_boundName? {n : Ident} {e : Expr} (hs : s.boundName? = some n)
    (hc : s.children = [.expr (e.named n)]) (hp : s.Permitted none) (hl : ∀ l ∈ s.locations, T l)
    (h : Sound T none (.expr e)) : Sound T none s := by
  refine .node hp hl ?_
  rw [hc]
  exact List.forall_mem_singleton.mpr (h.initializer_below hs)

theorem select {e : Expr} {arms : List Arm} (hl : T l) (h : Sound T none (.expr e))
    (hne : arms ≠ []) (ha : ∀ a ∈ arms, T a.location ∧ a.All fun e => Sound T none (.expr e)) :
    Sound T none (.expr (.select l e arms)) := by
  refine .of_parts hne ?_ rfl ?_
  · refine List.forall_mem_cons.mpr ⟨hl, ?_⟩
    exact List.forall_mem_map.mpr fun a hm => (ha a hm).1
  · refine List.forall_mem_cons.mpr ⟨⟨e, rfl, h⟩, fun t ht => ?_⟩
    obtain ⟨a, hm, hta⟩ := List.mem_flatMap.mp ht
    exact mem_parts_of_arm (ha a hm).2 t hta

/-- An application is a sequence where a call of `seq` on a list would be left. -/
theorem applied {f : Expr} {es : List Expr} (hf : Sound T none (.expr f))
    (hes : ∀ e ∈ es, Sound T none (.expr e)) : Sound T none (.expr (f.applied es)) := by
  have hcall : ∀ {l}, T l →
      (¬ ∃ l l' elements, f = .name l "seq" ∧ es = [.list l' elements]) →
      Sound T none (.expr (.call l f es)) := by
    intro l hl hseq
    exact .of_exprs hseq hl rfl rfl (f :: es) rfl (List.forall_mem_cons.mpr ⟨hf, hes⟩)
  unfold Expr.applied
  split
  · rename_i l n l' elements
    split
    · have hlist : Sound T none (.expr (.list l' elements)) := hes _ (.head _)
      exact .node trivial (List.forall_mem_singleton.mpr hf.location) fun t ht =>
        (hlist.child ht).alike rfl rfl rfl
    · rename_i hn
      refine hcall hf.location ?_
      rintro ⟨k, k', elements', hname, -⟩
      exact hn (Expr.name.inj hname).2
  · rename_i hnot
    refine hcall hf.location ?_
    rintro ⟨k, k', elements, hname, hlist⟩
    exact hnot k "seq" k' elements hname hlist

theorem block {ss : List Stmt} (hl : T l) (hd : ss.any Stmt.isDeclaration = false)
    (h : ∀ t ∈ ss, Sound T none t) : Sound T none (.expr (.block l ss)) := by
  refine .node trivial (List.forall_mem_singleton.mpr hl) fun t ht => ?_
  have ht : t ∈ ss := by simpa [Stmt.children, Stmt.parts, Stmt.members, Expr.parts] using ht
  refine (h t ht).statement_below rfl fun htd => ?_
  exact absurd htd (by simpa using List.any_eq_false.mp hd t ht)

theorem module {isPublic : Bool} {n : Ident} {ss : List Stmt} (hl : T l)
    (h : ∀ t ∈ ss, Sound T none t) : Sound T none (.module l isPublic n ss) := by
  refine .node nofun (List.forall_mem_singleton.mpr hl) fun t ht => ?_
  exact (h t ht).statement_below rfl fun _ => rfl

/-- The function given to a variation becomes part of it. -/
theorem variation {l' : Location} {n : Ident} {o : Option Ident} {ps : List Ident} {e : Expr}
    (hl : T l) (h : Sound T none (.expr (.lambda l' o ps e))) :
    Sound T none (.variation l n l' ps e) :=
  .node ⟨nofun, h.permitted.1⟩ (List.forall_mem_cons.mpr
    ⟨hl, List.forall_mem_singleton.mpr h.location⟩) fun _ ht =>
    (h.child ht).alike rfl rfl rfl

theorem imports {names : List Ident} {path : Text} (hl : T l) (hn : names ≠ []) :
    Sound T none (.imports l names path) :=
  .node ⟨nofun, hn⟩ (List.forall_mem_singleton.mpr hl) fun _ ht => by cases ht

end Constructs

end Sound

namespace Grammar

/-- What the productions keep of the values that trees stand for. -/
def Symbol.Keeps (T : Location → Prop) : (s : Symbol) → s.Value → Prop
  | .program, ss | .items, ss => ∀ t ∈ ss, Sound T none t
  | .separator, _ => True
  | .item, o => ∀ t ∈ o, Sound T none t
  | .statement, t | .declaration, t => Sound T none t
  | .importNames, names => names ≠ []
  | .params, _ | .paramList, _ => True
  | .expression, e | .applied, e | .primary, e => Sound T none (.expr e)
  | .arms, as => as ≠ [] ∧ ∀ a ∈ as, T a.location ∧ a.All fun e => Sound T none (.expr e)
  | .arm, a => T a.location ∧ a.All fun e => Sound T none (.expr e)
  | .arguments, es | .argumentList, es => ∀ e ∈ es, Sound T none (.expr e)

/-- If the tokens of the tree lie in `T`, the productions keep this of what it stands for. -/
def Tree.Keeps (T : Location → Prop) {s : Symbol} (t : Tree s) : Prop :=
  (∀ u ∈ t.tokens, T u.location) → ∀ {v}, t.value? = some v → s.Keeps T v

section Productions

variable {T : Location → Prop} {l l₁ l₂ l₃ l₄ l₅ : Location} {n x : Ident}

/-! ### Items -/

theorem keeps_oneItem {t : Tree .item} (ht : t.Keeps T) : (Tree.oneItem t).Keeps T := by
  intro hT v h
  obtain ⟨o, ho, h⟩ := Option.bind_eq_some_iff.mp h
  cases h
  exact fun s hs => ht hT ho s (by simpa using hs)

theorem keeps_moreItems {ts : Tree .items} {s : Tree .separator} {t : Tree .item}
    (hts : ts.Keeps T) (ht : t.Keeps T) : (Tree.moreItems ts s t).Keeps T := by
  intro hT v h
  obtain ⟨ss, hss, h⟩ := Option.bind_eq_some_iff.mp h
  obtain ⟨o, ho, h⟩ := Option.bind_eq_some_iff.mp h
  cases h
  simp only [Tree.tokens, List.forall_mem_append] at hT
  obtain ⟨⟨htokens, -⟩, hT⟩ := hT
  exact List.forall_mem_append.mpr ⟨hts htokens hss, fun s hs => ht hT ho s (by simpa using hs)⟩

theorem keeps_filled {t : Tree .statement} (ht : t.Keeps T) : (Tree.filled t).Keeps T := by
  intro hT v h
  obtain ⟨s, hs, h⟩ := Option.bind_eq_some_iff.mp h
  cases h
  rintro s ⟨⟩
  exact ht hT hs

theorem keeps_blank : Tree.blank.Keeps T := by
  intro _ v h
  cases h
  rintro s ⟨⟩

/-! ### Statements -/

theorem keeps_expression {t : Tree .expression} (ht : t.Keeps T) : (Tree.expression t).Keeps T := by
  intro hT v h
  obtain ⟨e, he, h⟩ := Option.bind_eq_some_iff.mp h
  cases h
  exact ht hT he

theorem keeps_publicBinding {t : Tree .expression} (ht : t.Keeps T) :
    (Tree.publicBinding l l₁ l₂ l₃ n t).Keeps T := by
  intro hT v h
  obtain ⟨e, he, h⟩ := Option.bind_eq_some_iff.mp h
  cases h
  simp only [Tree.tokens, List.forall_mem_append, List.forall_mem_cons] at hT
  obtain ⟨⟨hl, -⟩, hT⟩ := hT
  exact .of_boundName? rfl rfl (by simp [Stmt.Permitted]) (List.forall_mem_singleton.mpr hl) (ht hT he)

theorem keeps_variation {t : Tree .expression} (ht : t.Keeps T) :
    (Tree.variation l l₁ l₂ n t).Keeps T := by
  intro hT v h
  obtain ⟨e, he, h⟩ := Option.bind_eq_some_iff.mp h
  simp only [Tree.tokens, List.forall_mem_append, List.forall_mem_cons] at hT
  obtain ⟨⟨hl, -⟩, hT⟩ := hT
  cases e with
  | lambda l' o ps e =>
    cases h
    exact .variation hl (ht hT he)
  | _ => cases h

theorem keeps_module {t : Tree .items} (ht : t.Keeps T) :
    (Tree.module l l₁ l₂ l₃ n t).Keeps T := by
  intro hT v h
  obtain ⟨ss, hss, h⟩ := Option.bind_eq_some_iff.mp h
  cases h
  simp only [Tree.tokens, List.forall_mem_append, List.forall_mem_cons] at hT
  obtain ⟨⟨⟨hl, -⟩, hT⟩, -⟩ := hT
  exact .module hl (ht hT hss)

theorem keeps_publicModule {t : Tree .items} (ht : t.Keeps T) :
    (Tree.publicModule l l₁ l₂ l₃ l₄ n t).Keeps T := by
  intro hT v h
  obtain ⟨ss, hss, h⟩ := Option.bind_eq_some_iff.mp h
  cases h
  simp only [Tree.tokens, List.forall_mem_append, List.forall_mem_cons] at hT
  obtain ⟨⟨⟨hl, -⟩, hT⟩, -⟩ := hT
  exact .module hl (ht hT hss)

theorem keeps_imports {t : Tree .importNames} {path : Text} (ht : t.Keeps T) :
    (Tree.imports l l₁ l₂ t path).Keeps T := by
  intro hT v h
  obtain ⟨ns, hns, h⟩ := Option.bind_eq_some_iff.mp h
  cases h
  simp only [Tree.tokens, List.forall_mem_append, List.forall_mem_cons] at hT
  obtain ⟨⟨hl, hT⟩, -⟩ := hT
  exact .imports hl (ht hT hns)

theorem keeps_oneImport : (Tree.oneImport l n).Keeps T := by
  intro _ v h
  cases h
  exact List.cons_ne_nil n []

theorem keeps_moreImports {t : Tree .importNames} : (Tree.moreImports t l₁ l₂ n).Keeps T := by
  intro _ v h
  obtain ⟨ns, -, h⟩ := Option.bind_eq_some_iff.mp h
  cases h
  exact List.append_ne_nil_of_right_ne_nil ns (List.cons_ne_nil n [])

/-! ### Expressions -/

theorem keeps_binding {t : Tree .expression} (ht : t.Keeps T) :
    (Tree.binding l l₁ l₂ n t).Keeps T := by
  intro hT v h
  obtain ⟨e, he, h⟩ := Option.bind_eq_some_iff.mp h
  cases h
  simp only [Tree.tokens, List.forall_mem_append, List.forall_mem_cons] at hT
  obtain ⟨⟨hl, -⟩, hT⟩ := hT
  exact .of_boundName? rfl rfl trivial (List.forall_mem_singleton.mpr hl) (ht hT he)

theorem keeps_lambda {ps : Tree .params} {t : Tree .expression} (ht : t.Keeps T) :
    (Tree.lambda l l₁ l₂ l₃ ps t).Keeps T := by
  intro hT v h
  obtain ⟨names, -, h⟩ := Option.bind_eq_some_iff.mp h
  obtain ⟨e, he, h⟩ := Option.bind_eq_some_iff.mp h
  simp only [Tree.tokens, List.forall_mem_append, List.forall_mem_cons] at hT
  obtain ⟨⟨⟨⟨hl, -⟩, -⟩, -⟩, hT⟩ := hT
  obtain ⟨hps, h⟩ := Option.ite_none_right_eq_some.mp h
  cases h
  exact .lambda hl hps (ht hT he)

theorem keeps_cond {a b c : Tree .expression} (ha : a.Keeps T) (hb : b.Keeps T) (hc : c.Keeps T) :
    (Tree.cond l l₁ l₂ a b c).Keeps T := by
  intro hT v h
  obtain ⟨e, he, h⟩ := Option.bind_eq_some_iff.mp h
  obtain ⟨yes, hyes, h⟩ := Option.bind_eq_some_iff.mp h
  obtain ⟨no, hno, h⟩ := Option.bind_eq_some_iff.mp h
  cases h
  simp only [Tree.tokens, List.forall_mem_append, List.forall_mem_cons] at hT
  obtain ⟨⟨⟨hl, hTa⟩, -, hTb⟩, -, hTc⟩ := hT
  exact .cond hl (ha hTa he) (hb hTb hyes) (hc hTc hno)

theorem keeps_select {t : Tree .expression} {arms : Tree .arms} (ht : t.Keeps T)
    (ha : arms.Keeps T) : (Tree.select l t arms).Keeps T := by
  intro hT v h
  obtain ⟨e, he, h⟩ := Option.bind_eq_some_iff.mp h
  obtain ⟨as, has, h⟩ := Option.bind_eq_some_iff.mp h
  cases h
  simp only [Tree.tokens, List.forall_mem_append, List.forall_mem_cons] at hT
  obtain ⟨⟨hl, hT⟩, hTa⟩ := hT
  obtain ⟨hne, hall⟩ := ha hTa has
  exact .select hl (ht hT he) hne hall

theorem keeps_binary {m : Mark} {op : BinaryOp} {hop : m.binary? = some op} {a b : Tree .expression}
    (ha : a.Keeps T) (hb : b.Keeps T) : (Tree.binary l hop a b).Keeps T := by
  intro hT v h
  obtain ⟨e, he, h⟩ := Option.bind_eq_some_iff.mp h
  obtain ⟨e', he', h⟩ := Option.bind_eq_some_iff.mp h
  cases h
  simp only [Tree.tokens, List.forall_mem_append, List.forall_mem_cons] at hT
  obtain ⟨hTa, hl, hTb⟩ := hT
  exact .binary hl (ha hTa he) (hb hTb he')

theorem keeps_unary {m : Mark} {op : UnaryOp} {hop : m.unary? = some op} {t : Tree .expression}
    (ht : t.Keeps T) : (Tree.unary l hop t).Keeps T := by
  intro hT v h
  obtain ⟨e, he, h⟩ := Option.bind_eq_some_iff.mp h
  cases h
  simp only [Tree.tokens, List.forall_mem_cons] at hT
  exact .unary hT.1 (ht hT.2 he)

/-! ### Arms -/

theorem keeps_oneArm {t : Tree .arm} (ht : t.Keeps T) : (Tree.oneArm t).Keeps T := by
  intro hT v h
  obtain ⟨a, ha, h⟩ := Option.bind_eq_some_iff.mp h
  cases h
  exact ⟨List.cons_ne_nil a [], List.forall_mem_singleton.mpr (ht hT ha)⟩

theorem keeps_moreArms {ts : Tree .arms} {t : Tree .arm} (hts : ts.Keeps T) (ht : t.Keeps T) :
    (Tree.moreArms ts t).Keeps T := by
  intro hT v h
  obtain ⟨as, has, h⟩ := Option.bind_eq_some_iff.mp h
  obtain ⟨a, ha, h⟩ := Option.bind_eq_some_iff.mp h
  cases h
  simp only [Tree.tokens, List.forall_mem_append] at hT
  exact ⟨List.append_ne_nil_of_right_ne_nil as (List.cons_ne_nil a []),
    Reader.all_append (hts hT.1 has).2 (ht hT.2 ha)⟩

theorem keeps_arm {t : Tree .expression} (ht : t.Keeps T) : (Tree.arm l l₁ l₂ x t).Keeps T := by
  intro hT v h
  obtain ⟨e, he, h⟩ := Option.bind_eq_some_iff.mp h
  cases h
  simp only [Tree.tokens, List.forall_mem_append, List.forall_mem_cons] at hT
  obtain ⟨⟨hl, -⟩, hT⟩ := hT
  exact ⟨hl, (by rintro g ⟨⟩), ht hT he⟩

theorem keeps_guardedArm {guard t : Tree .expression} (hg : guard.Keeps T) (ht : t.Keeps T) :
    (Tree.guardedArm l l₁ l₂ l₃ x guard t).Keeps T := by
  intro hT v h
  obtain ⟨g, hguard, h⟩ := Option.bind_eq_some_iff.mp h
  obtain ⟨e, he, h⟩ := Option.bind_eq_some_iff.mp h
  cases h
  simp only [Tree.tokens, List.forall_mem_append, List.forall_mem_cons] at hT
  obtain ⟨⟨⟨hl, -⟩, hTg⟩, -, hT⟩ := hT
  refine ⟨hl, ?_, ht hT he⟩
  rintro g ⟨⟩
  exact hg hTg hguard

/-! ### Calls -/

theorem keeps_call {f : Tree .applied} {t : Tree .arguments} (hf : f.Keeps T) (ht : t.Keeps T) :
    (Tree.call f l₁ l₂ t).Keeps T := by
  intro hT v h
  obtain ⟨e, he, h⟩ := Option.bind_eq_some_iff.mp h
  obtain ⟨es, hes, h⟩ := Option.bind_eq_some_iff.mp h
  cases h
  simp only [Tree.tokens, List.forall_mem_append, List.forall_mem_cons] at hT
  obtain ⟨⟨hTf, -, hT⟩, -⟩ := hT
  exact (hf hTf he).applied (ht hT hes)

theorem keeps_noArguments : Tree.noArguments.Keeps T := by
  intro _ v h
  cases h
  exact List.forall_mem_nil _

theorem keeps_oneArgument {t : Tree .expression} (ht : t.Keeps T) :
    (Tree.oneArgument t).Keeps T := by
  intro hT v h
  obtain ⟨e, he, h⟩ := Option.bind_eq_some_iff.mp h
  cases h
  exact List.forall_mem_singleton.mpr (ht hT he)

theorem keeps_moreArguments {ts : Tree .argumentList} {t : Tree .expression} (hts : ts.Keeps T)
    (ht : t.Keeps T) : (Tree.moreArguments ts l₁ t).Keeps T := by
  intro hT v h
  obtain ⟨es, hes, h⟩ := Option.bind_eq_some_iff.mp h
  obtain ⟨e, he, h⟩ := Option.bind_eq_some_iff.mp h
  cases h
  simp only [Tree.tokens, List.forall_mem_append, List.forall_mem_cons] at hT
  exact Reader.all_append (hts hT.1 hes) (ht hT.2.2 he)

/-! ### Operands -/

/-- An operand without parts stands at its first token. -/
theorem keeps_leaf {t : Tree .primary} {u : Token} (hu : u ∈ t.tokens)
    (h : ∀ e, t.value? = some e → (Stmt.expr e).Permitted none ∧ e.location = u.location ∧
      (Stmt.expr e).locations = [e.location] ∧ (Stmt.expr e).boundName? = none ∧ e.parts = []) :
    t.Keeps T := by
  intro hT v hv
  obtain ⟨hp, hl, hs, hb, hparts⟩ := h v hv
  exact .leaf hp (hl ▸ hT u hu) hs hb hparts

theorem keeps_group {t : Tree .expression} (ht : t.Keeps T) : (Tree.group l l₁ t).Keeps T := by
  intro hT v h
  simp only [Tree.tokens, List.forall_mem_append, List.forall_mem_cons] at hT
  exact ht hT.1.2 h

theorem keeps_block {t : Tree .items} (ht : t.Keeps T) : (Tree.block l l₁ t).Keeps T := by
  intro hT v h
  obtain ⟨ss, hss, h⟩ := Option.bind_eq_some_iff.mp h
  simp only [Tree.tokens, List.forall_mem_append, List.forall_mem_cons] at hT
  obtain ⟨⟨hl, hT⟩, -⟩ := hT
  obtain ⟨hd, h⟩ := Option.ite_none_left_eq_some.mp h
  cases h
  exact .block hl (Bool.eq_false_iff.mpr hd) (ht hT hss)

theorem keeps_list {t : Tree .arguments} (ht : t.Keeps T) : (Tree.list l l₁ t).Keeps T := by
  intro hT v h
  obtain ⟨es, hes, h⟩ := Option.bind_eq_some_iff.mp h
  cases h
  simp only [Tree.tokens, List.forall_mem_append, List.forall_mem_cons] at hT
  exact .list hT.1.1 (ht hT.1.2 hes)

theorem keeps_range {a b : Tree .expression} (ha : a.Keeps T) (hb : b.Keeps T) :
    (Tree.range l l₁ l₂ a b).Keeps T := by
  intro hT v h
  obtain ⟨e, he, h⟩ := Option.bind_eq_some_iff.mp h
  obtain ⟨e', he', h⟩ := Option.bind_eq_some_iff.mp h
  cases h
  simp only [Tree.tokens, List.forall_mem_append, List.forall_mem_cons] at hT
  obtain ⟨⟨⟨hl, hTa⟩, -, hTb⟩, -⟩ := hT
  exact .range hl (ha hTa he) (hb hTb he')

theorem keeps_comprehension {t b : Tree .expression} (ht : t.Keeps T) (hb : b.Keeps T) :
    (Tree.comprehension l l₁ l₂ l₃ l₄ t x b).Keeps T := by
  intro hT v h
  obtain ⟨e, he, h⟩ := Option.bind_eq_some_iff.mp h
  obtain ⟨e', he', h⟩ := Option.bind_eq_some_iff.mp h
  cases h
  simp only [Tree.tokens, List.forall_mem_append, List.forall_mem_cons] at hT
  obtain ⟨⟨⟨⟨hl, hT⟩, -⟩, hTb⟩, -⟩ := hT
  exact .comprehension hl (ht hT he) (hb hTb he') (by rintro c ⟨⟩)

theorem keeps_filtered {t b c : Tree .expression} (ht : t.Keeps T) (hb : b.Keeps T)
    (hc : c.Keeps T) : (Tree.filtered l l₁ l₂ l₃ l₄ l₅ t x b c).Keeps T := by
  intro hT v h
  obtain ⟨e, he, h⟩ := Option.bind_eq_some_iff.mp h
  obtain ⟨e', he', h⟩ := Option.bind_eq_some_iff.mp h
  obtain ⟨e'', he'', h⟩ := Option.bind_eq_some_iff.mp h
  cases h
  simp only [Tree.tokens, List.forall_mem_append, List.forall_mem_cons] at hT
  obtain ⟨⟨⟨⟨⟨hl, hT⟩, -⟩, hTb⟩, -, hTc⟩, -⟩ := hT
  refine .comprehension hl (ht hT he) (hb hTb he') ?_
  rintro g ⟨⟩
  exact hc hTc he''

end Productions

theorem keeps_value (T : Location → Prop) {s : Symbol} (t : Tree s) : t.Keeps T := by
  induction t with
  | program _ ih | declaration _ ih | operand _ ih | uncalled _ ih | someArguments _ ih => exact ih
  | oneItem _ ih => exact keeps_oneItem ih
  | moreItems _ _ _ ihs _ ih => exact keeps_moreItems ihs ih
  | newline | semicolon | noParams | someParams | oneParam | moreParams => exact fun _ _ _ => trivial
  | filled _ ih => exact keeps_filled ih
  | blank => exact keeps_blank
  | expression _ ih => exact keeps_expression ih
  | publicBinding _ _ _ _ _ _ ih => exact keeps_publicBinding ih
  | variation _ _ _ _ _ ih => exact keeps_variation ih
  | module _ _ _ _ _ _ ih => exact keeps_module ih
  | publicModule _ _ _ _ _ _ _ ih => exact keeps_publicModule ih
  | imports _ _ _ _ _ ih => exact keeps_imports ih
  | oneImport => exact keeps_oneImport
  | moreImports => exact keeps_moreImports
  | binding _ _ _ _ _ ih => exact keeps_binding ih
  | lambda _ _ _ _ _ _ _ ih => exact keeps_lambda ih
  | cond _ _ _ _ _ _ iha ihb ihc => exact keeps_cond iha ihb ihc
  | select _ _ _ ih iharms => exact keeps_select ih iharms
  | binary _ _ _ _ iha ihb => exact keeps_binary iha ihb
  | unary _ _ _ ih => exact keeps_unary ih
  | oneArm _ ih => exact keeps_oneArm ih
  | moreArms _ _ ihs ih => exact keeps_moreArms ihs ih
  | arm _ _ _ _ _ ih => exact keeps_arm ih
  | guardedArm _ _ _ _ _ _ _ ihg ih => exact keeps_guardedArm ihg ih
  | call _ _ _ _ ihf ih => exact keeps_call ihf ih
  | noArguments => exact keeps_noArguments
  | oneArgument _ ih => exact keeps_oneArgument ih
  | moreArguments _ _ _ ihs ih => exact keeps_moreArguments ihs ih
  | number | float | string | char | bool | name | dotted | unit =>
    refine keeps_leaf (.head _) fun e he => ?_
    cases he
    exact ⟨trivial, rfl, rfl, rfl, rfl⟩
  | group _ _ _ ih => exact keeps_group ih
  | block _ _ _ ih => exact keeps_block ih
  | list _ _ _ ih => exact keeps_list ih
  | range _ _ _ _ _ iha ihb => exact keeps_range iha ihb
  | comprehension _ _ _ _ _ _ _ _ ih ihb => exact keeps_comprehension ih ihb
  | filtered _ _ _ _ _ _ _ _ _ _ ih ihb ihc => exact keeps_filtered ih ihb ihc

end Grammar

/-! ## Programs -/

theorem sound_of_readProgram {file source : Text} {program : Program}
    (h : readProgram file source = .ok program) :
    ∀ s ∈ program, Sound (fun l => ∃ t ∈ (tokenize file source).1, t.location = l) none s := by
  obtain ⟨ts, htokens, hread⟩ := tokens_of_readProgram h
  obtain ⟨t, rfl, hvalue, -⟩ := Grammar.derives_of_readTokens hread
  refine Grammar.keeps_value _ t (fun u hu => ⟨u, ?_, rfl⟩) hvalue
  rwa [htokens]

/-- Where a declaration is permitted below the node above it, all nodes above it are modules: the
next one is a declaration too. -/
theorem Occurs.sound {T : Location → Prop} {program : Program} {above : List Stmt} {s : Stmt}
    (hp : ∀ t ∈ program, Sound T none t) (h : Occurs program above s) :
    Sound T above.head? s ∧ (s.isDeclaration = true → ∀ a ∈ above, a.isModule = true) := by
  induction h with
  | top hs => exact ⟨hp _ hs, fun _ => nofun⟩
  | @child above s t _ ht ih =>
    obtain ⟨hs, habove⟩ := ih
    have hsound : Sound T (some s) t := hs.child ht
    refine ⟨hsound, fun hd => ?_⟩
    have hmodule : s.isModule = true := by
      have hpermitted := hsound.permitted
      cases t with
      | publicBinding l n e => exact hpermitted s rfl
      | module l isPublic n body => exact hpermitted s rfl
      | _ => cases hd
    exact List.forall_mem_cons.mpr ⟨hmodule, habove (Stmt.isDeclaration_of_isModule hmodule)⟩

/-- Every node of a program that is read, at any depth, may stand below the node above it, has
nothing but modules above it if it is a declaration, and is located at tokens of the source. Only the
program itself, which is no statement and above them all, is located at the first column of the first
line always, also where no token stands there. -/
theorem read_wellFormed {file source : Text} {program : Program}
    (h : readProgram file source = .ok program) {above : List Stmt} {s : Stmt}
    (hs : Occurs program above s) :
    s.Permitted above.head? ∧ (s.isDeclaration = true → ∀ a ∈ above, a.isModule = true) ∧
      ∀ l ∈ s.locations, ∃ t ∈ (tokenize file source).1, t.location = l := by
  obtain ⟨hsound, habove⟩ := hs.sound (sound_of_readProgram h)
  exact ⟨hsound.permitted, habove, hsound.locations⟩

/-! ## A function that is bound -/

open Grammar in
/-- The function in `pub let f = fn(x) => x`. -/
def boundFunction : Expr := .lambda (column 13) (some "f") ["x"] (.name (column 22) "x")

open Grammar in
def functionBinding : Stmt := .publicBinding (column 1) "f" boundFunction

open Grammar in
theorem functionBinding_read :
    readProgram "main" "pub let f = fn(x) => x" = .ok [functionBinding] := by
  have hscan : tokenize "main" "pub let f = fn(x) => x" =
      ([⟨.keyword .pubWord, column 1⟩, ⟨.keyword .letWord, column 5⟩, ⟨.identifier "f", column 9⟩,
        ⟨.mark .assign, column 11⟩, ⟨.keyword .fnWord, column 13⟩, ⟨.mark .leftParen, column 15⟩,
        ⟨.identifier "x", column 16⟩, ⟨.mark .rightParen, column 17⟩, ⟨.mark .arrow, column 19⟩,
        ⟨.identifier "x", column 22⟩], none) := by decide +kernel
  rw [readProgram_of_tokenize hscan]
  rfl

theorem boundFunction_occurs :
    Occurs [functionBinding] [functionBinding] (.expr boundFunction) :=
  .child (.top (.head _)) (.head _)

theorem read_wellFormed_boundFunction :
    readProgram "main" "pub let f = fn(x) => x" = .ok [functionBinding] ∧
      Occurs [functionBinding] [functionBinding] (.expr boundFunction) ∧
      (Stmt.expr boundFunction).Permitted (some functionBinding) ∧
      ∃ t ∈ (tokenize "main" "pub let f = fn(x) => x").1, t.location = Grammar.column 13 := by
  obtain ⟨hpermitted, -, hlocations⟩ := read_wellFormed functionBinding_read boundFunction_occurs
  exact ⟨functionBinding_read, boundFunction_occurs, hpermitted, hlocations _ (.head _)⟩

end ModuleScript
