import ModuleScript.Proofs.Congruence.Habits
import ModuleScript.Proofs.Congruence.Modest
import ModuleScript.Proofs.Loading

/-!
# Relations that evaluation preserves

A relation between computations that holds of every modest one with itself and is preserved by the
ways in which computations are put together: one after the other, mending the machine. If it relates
two steps on every task and what these load, it relates the steps one level above them on every task
that may place reports where it stands.
-/

set_option autoImplicit false

namespace ModuleScript

open Eval Session

structure Congruence where
  Rel {α : Type} : Eval α → Eval α → Prop
  own {α : Type} {x : Eval α} : Modest x → Rel x x
  bind {α β : Type} {x y : Eval α} {f g : α → Eval β} :
    Rel x y → (∀ a, Rel (f a) (g a)) → Rel (x >>= f) (y >>= g)
  mending {α : Type} {x y : Eval α} {mend : Machine → Machine} :
    (∀ m : Machine, m.Modest (mend m)) → Rel x y →
      Rel (Eval.mending x mend) (Eval.mending y mend)

namespace Congruence

variable (C : Congruence) {α β ι : Type} {h : Host} {self self' : Step}

/-- The steps are related on every task. -/
def Follows (self self' : Step) : Prop := ∀ t, C.Rel (self t) (self' t)

/-- What the steps lead imports to load is related. -/
def Loads (h : Host) (self self' : Step) : Prop :=
  ∀ relative importer, C.Rel (Eval.load h self relative importer) (Eval.load h self' relative importer)

/-- Reports may be given the place. -/
def Places (h : Host) (l : Location) : Prop :=
  ∀ {α : Type} {x y : Eval α}, C.Rel x y → C.Rel (Eval.located h l x) (Eval.located h l y)

/-- Reports may be given the place of the task, if it has one. -/
def PlacesAt (h : Host) : Task → Prop
  | .eval _ s => C.Places h s.location
  | _ => True

/-- The file may be read as a program. -/
def Reads (h : Host) (p : Path) : Prop := ∀ source, h.disk.readText p = .ok source →
  C.Rel (Eval.lift (h.read p.text source)) (Eval.lift (h.read p.text source))

/-- The load of a file may be begun, and ended whichever way its evaluation ends. -/
structure Brackets : Prop where
  begins : ∀ p, C.Rel (Eval.change (·.beginLoading p)) (Eval.change (·.beginLoading p))
  aborts : ∀ {α : Type} {x y : Eval α} (p), C.Rel x y →
    C.Rel (Eval.mending x (·.abortLoading p)) (Eval.mending y (·.abortLoading p))
  finishes : ∀ (p) (e : Machine → Exports), C.Rel (Eval.change fun m => m.finishLoading p (e m))
    (Eval.change fun m => m.finishLoading p (e m))

/-- Files may be loaded. -/
structure Files (h : Host) : Prop extends C.Brackets where
  reads : ∀ {relative importer p}, h.disk.resolveImport relative importer = .ok p → C.Reads h p

variable {C}

/-! ## Rules -/

theorem pure (a : α) : C.Rel (Pure.pure a) (Pure.pure a) := C.own (modest_pure a)

theorem get : C.Rel (MonadState.get : Eval Machine) MonadState.get :=
  C.own ⟨fun m => .refl m, rfl⟩

/-- Two computations that do an action of their own first and are related then. -/
theorem after {x : Eval α} {f g : α → Eval β} (hx : Modest x) (hf : ∀ a, C.Rel (f a) (g a)) :
    C.Rel (x >>= f) (x >>= g) :=
  C.bind (C.own hx) hf

/-- Two computations that are related for what a result yields, if it yields anything. -/
theorem given {r : Except Failure α} {f g : α → Eval β} (hr : Failure.Bare r)
    (hf : ∀ a, r = .ok a → C.Rel (f a) (g a)) :
    C.Rel (Eval.lift r >>= f) (Eval.lift r >>= g) := by
  cases r with
  | ok a => exact hf a rfl
  | error e =>
    have hnone : Failure.Bare (.error e : Except Failure β) := hr.bind (f := fun _ => .error e)
      fun _ => congrArg Except.error (hr.unplaced_eq rfl)
    exact C.own (modest_lift hnone)

theorem imports {c : Context} {path : Text}
    (hl : C.Rel (Eval.load h self path c.site.source) (Eval.load h self' path c.site.source))
    (names : List Ident) :
    C.Rel (Eval.imports h self c names path) (Eval.imports h self' c names path) := by
  refine C.bind hl fun exports => ?_
  exact after (modest_bindImports c path exports names) fun _ => pure _

/-- Waiting does not set related steps apart. -/
theorem Follows.below (hs : C.Follows self self') (h : Host) (w : Work) :
    C.Follows (self.below h w) (self'.below h w) :=
  fun t => hs (t.after (h.platform.between w t.work))

theorem placed {t : Task} (hp : C.PlacesAt h t)
    (ht : C.Rel (Eval.inside h self t) (Eval.inside h self' t)) :
    C.Rel (Eval.step h self t) (Eval.step h self' t) := by
  cases t with
  | eval c s => exact hp ht
  | _ => exact ht

/-! ## Expressions -/

/-- What evaluation does itself in expressions is modest. -/
def habit (C : Congruence) : Habit where
  Rel := C.Rel
  bind := C.bind
  quiet hx := C.own (modest_of_quiet hx)
  enter c _ _ := C.own (modest_enter c _)
  define c n v isPublic := C.own (modest_define c n v isPublic)
  newClosure n vs := C.own (modest_newClosure n vs)
  write t := C.own (modest_write t)
  readLine := C.own modest_readLine

section Tasks

variable (hs : C.Follows self self')

include hs

theorem stmts (c : Context) (ss : List Stmt) : C.Rel (self.stmts c ss) (self'.stmts c ss) :=
  Habit.foldlM (H := C.habit) (fun _ s => hs (.eval c s)) ss .unit

theorem habit_follows : C.habit.Follows self self' where
  task t _ := hs t
  block c _ ss := after (modest_enter c _) fun inner => stmts hs inner ss

/-! ## Statements -/

theorem declareModule (c : Context) (isPublic : Bool) (name : Ident) (body : List Stmt) :
    C.Rel (Eval.declareModule self c isPublic name body)
      (Eval.declareModule self' c isPublic name body) := by
  refine after (modest_openModule c isPublic name) fun o => C.mending ?_ ?_
  · intro m
    have hremove : m.Modest (m.removeModule o.path) := .of_eq rfl rfl rfl
    exact hremove.trans (modest_restore c name o.old _)
  · refine after (modest_declareMembers o.id body) fun _ => ?_
    exact C.bind (stmts hs o.inner body) fun _ => pure _

theorem evaluateFile {path : Path} (hr : C.Reads h path) :
    C.Rel (Eval.evaluateFile h self path) (Eval.evaluateFile h self' path) := by
  refine given (Failure.bare_lift _) fun source ht => ?_
  refine C.bind (Habit.Follows.ask (habit_follows hs) (.read source)) fun _ => ?_
  refine C.bind (hr source (ok_of_lift ht)) fun program => ?_
  refine after (modest_openFile path) fun site => ?_
  exact C.bind (stmts hs _ program) fun _ => C.bind get fun _ => pure _

/-- Imports are statements apart: what they load is not modest. -/
theorem stmt_of_not_import (c : Context) {s : Stmt} (ht : s.isImport = false) :
    C.Rel (Eval.stmt h self c s) (Eval.stmt h self' c s) := by
  cases s with
  | expr e => exact Habit.expr (habit_follows hs) c e
  | publicBinding l name initializer =>
    exact C.bind (hs _) fun v => after (modest_define c name v true) fun _ => pure v
  | variation l name l' params body => exact C.own (modest_vary c name _)
  | module l isPublic name body => exact declareModule hs c isPublic name body
  | imports l names path => cases ht

theorem stmt (hl : C.Loads h self self') (c : Context) (s : Stmt) :
    C.Rel (Eval.stmt h self c s) (Eval.stmt h self' c s) := by
  cases hs' : s.isImport with
  | false => exact stmt_of_not_import hs c hs'
  | true =>
    cases s with
    | imports l names path => exact imports (hl path c.site.source) names
    | _ => cases hs'

theorem applyValue (site : Site) (f : Value) (args : List Value) :
    C.Rel (Eval.applyValue self site f args) (Eval.applyValue self' site f args) :=
  Habit.applyValue (habit_follows hs) site f args

theorem inside_of_not_import {t : Task} (ht : t.isImport = false) :
    C.Rel (Eval.inside h self t) (Eval.inside h self' t) := by
  cases t with
  | eval c s => exact stmt_of_not_import (hs.below h _) c ht
  | apply site f args => exact applyValue (hs.below h _) site f args
  | ask d => exact C.own ((modest_lift (h.bare_grants d)).bind fun _ => modest_pure _)
  | wait t => exact hs t

theorem inside {t : Task} (hl : ∀ c l names path, t = .eval c (.imports l names path) →
      C.Rel (Eval.load h (self.below h t.work) path c.site.source)
        (Eval.load h (self'.below h t.work) path c.site.source)) :
    C.Rel (Eval.inside h self t) (Eval.inside h self' t) := by
  cases ht : t.isImport with
  | false => exact inside_of_not_import hs ht
  | true =>
    cases t with
    | eval c s =>
      cases s with
      | imports l names path => exact imports (hl c l names path rfl) names
      | _ => cases ht
    | _ => cases ht

theorem step_of_not_import {t : Task} (hp : C.PlacesAt h t) (ht : t.isImport = false) :
    C.Rel (Eval.step h self t) (Eval.step h self' t) :=
  placed hp (inside_of_not_import hs ht)

theorem step (hl : ∀ w, C.Loads h (self.below h w) (self'.below h w)) {t : Task}
    (hp : C.PlacesAt h t) : C.Rel (Eval.step h self t) (Eval.step h self' t) :=
  placed hp (inside hs fun c _ _ path _ => hl t.work path c.site.source)

/-- Where reports may be given any place, so may those of any task. -/
theorem step_follows (hl : ∀ w, C.Loads h (self.below h w) (self'.below h w))
    (hp : ∀ l, C.Places h l) :
    C.Follows (Eval.step h self) (Eval.step h self') := by
  intro t
  refine step hs hl ?_
  cases t with
  | eval c s => exact hp s.location
  | _ => trivial

theorem Brackets.load (hC : C.Brackets) {relative importer : Text}
    (hr : ∀ {p}, h.disk.resolveImport relative importer = .ok p → C.Reads h p) :
    C.Rel (Eval.load h self relative importer) (Eval.load h self' relative importer) := by
  refine given (Failure.bare_lift _) fun path hpath => C.bind get fun m => ?_
  split
  · exact pure _
  · refine after (modest_lift (Failure.bare_lift _)) fun isFile => ?_
    have hopen : C.Rel (Eval.loadFresh h self path) (Eval.loadFresh h self' path) := by
      refine C.bind (hC.begins path) fun _ => ?_
      refine C.bind (hC.aborts path (evaluateFile hs (hr (ok_of_lift hpath)))) fun exports => ?_
      exact C.bind (hC.finishes path fun _ => exports) fun _ => pure _
    split
    · exact after (modest_because _) fun _ => hopen
    · exact hopen

theorem Files.loads (hC : C.Files h) : C.Loads h self self' :=
  fun _ _ => hC.toBrackets.load hs hC.reads

theorem Files.loads_below (hC : C.Files h) (w : Work) :
    C.Loads h (self.below h w) (self'.below h w) :=
  hC.loads (hs.below h w)

theorem execute (source : Text) (globals : FrameId) (outer : List FrameId) (program : Program) :
    C.Rel (Session.execute self source globals outer program)
      (Session.execute self' source globals outer program) := by
  refine after (modest_newSite source globals) fun site => ?_
  exact C.bind (stmts hs _ program) fun _ => pure _

end Tasks

end Congruence

end ModuleScript
