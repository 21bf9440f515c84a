import ModuleScript.Proofs.Congruence.Bare
import ModuleScript.Proofs.Store
import ModuleScript.Proofs.Watch

/-!
# Relations that calls and expressions preserve

A relation between computations that holds of every single action of expressions with itself and of
two sequences whose parts are related. If it relates two steps on every task but the declarations of
modules, and blocks of statements too, it relates what the steps make of values and expressions.
-/

set_option autoImplicit false

namespace ModuleScript

open Eval

def Task.isModule : Task → Bool
  | .eval _ s => s.isModule
  | .apply _ _ _ | .ask _ => false
  | .wait t => t.isModule

/-- A frame outside all modules that binds names to values. -/
structure Frame.Plain (f : Frame) : Prop where
  record : f.record = none
  bindings : ∀ n s, (n, s) ∈ f.bindings → ∃ v, s = .value v

namespace Frame

theorem plain_empty (name : Text) : Plain { name } := ⟨rfl, fun _ _ h => by cases h⟩

theorem plain_single (name : Text) (n : Ident) (v : Value) :
    Plain { name, bindings := [(n, .value v)] } := by
  refine ⟨rfl, fun x s h => ?_⟩
  cases List.mem_singleton.mp h
  exact ⟨v, rfl⟩

theorem plain_callFrame (f : Closure) (v : Variant) (args : List Value) :
    Plain (callFrame f v args) := by
  refine ⟨rfl, ?_⟩
  have hall : ∀ (ps : List (Ident × Value)) (b : Bindings Slot),
      (∀ n s, (n, s) ∈ b → ∃ u, s = .value u) →
      ∀ n s, (n, s) ∈ ps.foldl (fun b p => b.set p.1 (.value p.2)) b → ∃ u, s = .value u := by
    intro ps
    induction ps with
    | nil => exact fun _ hb => hb
    | cons p ps ih =>
      intro b hb
      refine ih _ fun n s hs => ?_
      rcases Bindings.mem_set hs with hs | ⟨-, rfl⟩
      · exact hb n s hs
      · exact ⟨p.2, rfl⟩
  exact hall _ [] fun _ _ h => by cases h

end Frame

structure Habit where
  Rel {α : Type} : Eval α → Eval α → Prop
  bind {α β : Type} {x y : Eval α} {f g : α → Eval β} :
    Rel x y → (∀ a, Rel (f a) (g a)) → Rel (x >>= f) (y >>= g)
  quiet {α : Type} {x : Eval α} : Quiet x → Rel x x
  enter (c : Context) {f : Frame} : f.Plain → Rel (c.enter f) (c.enter f)
  define (c : Context) (n : Ident) (v : Value) (isPublic : Bool) :
    Rel (Eval.define c n v isPublic) (Eval.define c n v isPublic)
  newClosure (n : Option Ident) (vs : List Variant) :
    Rel (Eval.newClosure n vs) (Eval.newClosure n vs)
  write (t : Text) : Rel (Eval.write t) (Eval.write t)
  readLine : Rel Eval.readLine Eval.readLine

namespace Habit

variable (H : Habit) {α β ι : Type} {self self' : Step}

/-- The steps are related on all tasks that do not declare modules, and on blocks. -/
structure Follows (next next' : Step) : Prop where
  task : ∀ t, t.isModule = false → H.Rel (next t) (next' t)
  block : ∀ (c : Context) (name : Text) (ss : List Stmt),
    H.Rel (do next.stmts (← c.enter { name }) ss) (do next'.stmts (← c.enter { name }) ss)

variable {H}

/-! ## Rules -/

theorem pure (a : α) : H.Rel (Pure.pure a) (Pure.pure a) := H.quiet (quiet_pure a)

theorem because (c : Cause) : H.Rel (Eval.because c : Eval α) (Eval.because c) :=
  H.quiet (quiet_because c)

theorem lift {r : Except Failure α} (hr : Failure.Bare r) : H.Rel (Eval.lift r) (Eval.lift r) :=
  H.quiet (quiet_lift hr)

/-- Two computations that read something first and are related then. -/
theorem after {x : Eval α} {f g : α → Eval β} (hx : Quiet x) (hf : ∀ a, H.Rel (f a) (g a)) :
    H.Rel (x >>= f) (x >>= g) :=
  H.bind (H.quiet hx) hf

theorem mapM {f g : ι → Eval α} (hf : ∀ i, H.Rel (f i) (g i)) (xs : List ι) :
    H.Rel (xs.mapM f) (xs.mapM g) := by
  induction xs with
  | nil => exact pure _
  | cons x xs ih =>
    rw [List.mapM_cons, List.mapM_cons]
    exact H.bind (hf x) fun _ => H.bind ih fun _ => pure _

theorem foldlM {f g : α → ι → Eval α} (hf : ∀ a i, H.Rel (f a i) (g a i)) (xs : List ι) (a : α) :
    H.Rel (xs.foldlM f a) (xs.foldlM g a) := by
  induction xs generalizing a with
  | nil => exact pure a
  | cons x xs ih =>
    rw [List.foldlM_cons, List.foldlM_cons]
    exact H.bind (hf a x) fun b => ih b

theorem filterMapM {f g : ι → Eval (Option α)} (hf : ∀ i, H.Rel (f i) (g i)) (xs : List ι) :
    H.Rel (xs.filterMapM f) (xs.filterMapM g) := by
  induction xs with
  | nil => exact pure _
  | cons x xs ih =>
    rw [List.filterMapM_cons, List.filterMapM_cons]
    refine H.bind (hf x) fun o => ?_
    cases o with
    | none => exact ih
    | some a => exact H.bind ih fun _ => pure _

theorem filterM {f g : ι → Eval Bool} (hf : ∀ i, H.Rel (f i) (g i)) (xs : List ι) :
    H.Rel (xs.filterM f) (xs.filterM g) := by
  have haux : ∀ (xs as : List ι), H.Rel (xs.filterAuxM f as) (xs.filterAuxM g as) := by
    intro xs
    induction xs with
    | nil => exact fun as => pure _
    | cons x xs ih =>
      intro as
      refine H.bind (hf x) fun b => ?_
      cases b with
      | true => exact ih _
      | false => exact ih _
  exact H.bind (haux xs []) fun _ => pure _

/-- Two related computations decided by a value. -/
theorem deciding {x y x' y' : Eval α} (v : Value) (hx : H.Rel x x') (hy : H.Rel y y') :
    H.Rel (do if ← isTruthy v then x else y) (do if ← isTruthy v then x' else y') := by
  refine after (quiet_lift (Value.bare_truthy v)) fun b => ?_
  cases b with
  | true => exact hx
  | false => exact hy

theorem bindImports (c : Context) (path : Text) (exports : Exports) (names : List Ident) :
    H.Rel (Eval.bindImports c path exports names) (Eval.bindImports c path exports names) := by
  induction names with
  | nil => exact pure _
  | cons name rest ih =>
    unfold Eval.bindImports
    split
    · exact because _
    · exact H.bind (H.define c name _ false) fun _ => ih

/-! ## Calls -/

section Tasks

variable (hs : H.Follows self self')

include hs

theorem Follows.expr (c : Context) (e : Expr) : H.Rel (self.expr c e) (self'.expr c e) :=
  hs.task (.eval c (.expr e)) rfl

theorem Follows.apply (site : Site) (f : Value) (args : List Value) :
    H.Rel (self (.apply site f args)) (self' (.apply site f args)) :=
  hs.task (.apply site f args) rfl

theorem Follows.ask (d : Demand) : H.Rel (self.ask d) (self'.ask d) :=
  H.bind (hs.task (.ask d) rfl) fun _ => pure _

theorem exprs (c : Context) (es : List Expr) : H.Rel (self.exprs c es) (self'.exprs c es) :=
  mapM (fun e => hs.expr c e) es

theorem applyClosure (site : Site) (f : Closure) (args : List Value) :
    H.Rel (Eval.applyClosure self site f args) (Eval.applyClosure self' site f args) := by
  unfold Eval.applyClosure
  split
  · exact H.bind (H.enter _ (Frame.plain_callFrame _ _ _)) fun inner => hs.expr inner _
  · exact because _

theorem output (t : Text) : H.Rel (Eval.output self t) (Eval.output self' t) :=
  H.bind (hs.ask (.write t)) fun _ => H.write t

theorem performNative (site : Site) (n : Native) (args : List Value) :
    H.Rel (Eval.performNative self site n args) (Eval.performNative self' site n args) := by
  have hitems : ∀ {n : Native} {xs : Value}, Quiet (Eval.lift (xs.expectItems n)) :=
    quiet_lift (Value.bare_expectItems _ _)
  unfold Eval.performNative
  split
  · exact after (quiet_lift (Failure.bare_lift _)) fun t => H.bind (output hs t) fun _ => pure _
  · exact after (quiet_lift (Failure.bare_lift _)) fun t => H.bind (output hs _) fun _ => pure _
  · exact after (quiet_lift (Failure.bare_lift _)) fun t => H.bind (output hs t) fun _ => H.readLine
  · exact after hitems fun items => H.bind (mapM (fun _ => hs.apply _ _ _) items) fun _ =>
      pure _
  · refine after hitems fun items => H.bind (filterM (fun x => ?_) items) fun _ => pure _
    exact H.bind (hs.apply _ _ _) fun v => lift (Value.bare_truthy v)
  · exact after hitems fun items => foldlM (fun _ _ => hs.apply _ _ _) items _
  · split
    · rename_i hr
      exact lift (Value.bare_applyNative? hr)
    · exact because _

theorem applyNative (site : Site) (n : Native) (args : List Value) :
    H.Rel (Eval.applyNative self site n args) (Eval.applyNative self' site n args) :=
  H.bind (hs.ask _) fun _ => performNative hs site n args

theorem applyValue (site : Site) (f : Value) (args : List Value) :
    H.Rel (Eval.applyValue self site f args) (Eval.applyValue self' site f args) := by
  cases f with
  | native n => exact applyNative hs site n args
  | closure f => exact applyClosure hs site f args
  | _ => exact because _

/-! ## Expressions -/

theorem shortCircuit (c : Context) (op : BinaryOp) (decisive : Bool) (a b : Expr) :
    H.Rel (Eval.shortCircuit self c op decisive a b)
      (Eval.shortCircuit self' c op decisive a b) := by
  refine H.bind (hs.expr c a) fun v => after (quiet_boolOperand op v) fun left => ?_
  split
  · exact pure _
  · exact H.bind (hs.expr c b) fun w => after (quiet_boolOperand op w) fun _ => pure _

theorem binary (c : Context) (op : BinaryOp) (a b : Expr) :
    H.Rel (Eval.binary self c op a b) (Eval.binary self' c op a b) := by
  unfold Eval.binary
  split
  · exact shortCircuit hs c .and false a b
  · exact shortCircuit hs c .or true a b
  · exact H.bind (hs.expr c a) fun left => H.bind (hs.expr c b) fun right =>
      H.bind (hs.ask _) fun _ => lift (Value.bare_binary _ left right)

theorem comprehend (c : Context) (element : Expr) (binder : Ident) (condition : Option Expr)
    (item : Value) :
    H.Rel (Eval.comprehend self c element binder condition item)
      (Eval.comprehend self' c element binder condition item) := by
  refine H.bind (H.enter c (Frame.plain_single _ _ _)) fun inner => ?_
  have helement : H.Rel (do return some (← self.expr inner element))
      (do return some (← self'.expr inner element)) :=
    H.bind (hs.expr inner element) fun _ => pure _
  cases condition with
  | none => exact helement
  | some test => exact H.bind (hs.expr inner test) fun v => deciding v helement (pure none)

theorem selectArm (c : Context) (subject : Value) (arms : List Arm) :
    H.Rel (Eval.selectArm self c subject arms) (Eval.selectArm self' c subject arms) := by
  induction arms with
  | nil =>
    exact H.bind (hs.ask _) fun _ => after (quiet_lift (Failure.bare_lift _)) fun _ => because _
  | cons arm rest ih =>
    obtain ⟨l, binder, guard, body⟩ := arm
    refine H.bind (H.enter c (Frame.plain_single _ _ _)) fun inner => ?_
    cases guard with
    | none => exact hs.expr inner body
    | some test => exact H.bind (hs.expr inner test) fun v => deciding v (hs.expr inner body) ih

theorem expr (c : Context) (e : Expr) : H.Rel (Eval.expr self c e) (Eval.expr self' c e) := by
  cases e with
  | constant l k => exact pure _
  | unit l => exact pure _
  | name l n => exact after (quiet_resolve c n) fun _ => pure _
  | dotted l names => exact H.quiet (quiet_dotted c names)
  | list l elements => exact H.bind (exprs hs c elements) fun _ => pure _
  | range l first stop =>
    exact H.bind (hs.expr c first) fun low => H.bind (hs.expr c stop) fun high =>
      H.bind (hs.ask _) fun _ => lift (Value.bare_numberRange low high)
  | comprehension l element binder iterable condition =>
    refine H.bind (hs.expr c iterable) fun v => ?_
    cases v.items? with
    | none => exact because _
    | some items =>
      exact H.bind (filterMapM (comprehend hs c element binder condition) items) fun _ => pure _
  | unary l op operand =>
    exact H.bind (hs.expr c operand) fun v => H.bind (hs.ask _) fun _ => lift (Value.bare_unary op v)
  | binary l op left right => exact binary hs c op left right
  | binding l name initializer =>
    exact H.bind (hs.expr c initializer) fun v => H.bind (H.define c name v false) fun _ => pure v
  | lambda l name params body => exact H.newClosure _ _
  | call l callee arguments =>
    refine H.bind (hs.expr c callee) fun f => H.bind (exprs hs c arguments) fun args => ?_
    exact applyValue hs c.site f args
  | cond l condition yes no =>
    exact H.bind (hs.expr c condition) fun v => deciding v (hs.expr c yes) (hs.expr c no)
  | select l subject arms => exact H.bind (hs.expr c subject) fun v => selectArm hs c v arms
  | block l statements => exact hs.block c "block" statements
  | sequence l elements => exact hs.block c "seq" (elements.map .expr)

end Tasks

end Habit

end ModuleScript
