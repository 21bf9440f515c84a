import ModuleScript.Proofs.Invariant.Expressions
import ModuleScript.Proofs.Watch

/-!
# Only imports fail as imports do

A failure of an import says that a file cannot be found, is being loaded already, or does not export
a name. No operator, native or statement other than an import fails in such a way, as long as the
tasks it leads to do not.
-/

set_option autoImplicit false

namespace ModuleScript

open Eval

/-- A report that an import has failed. -/
def Failure.OfImport : Failure → Prop
  | .report r => r.kind = .importFailure
  | _ => False

/-! ## Results -/

namespace Failure

variable {α β : Type}

/-- If it is a failure, then not of an import. -/
def Harmless (r : Except Failure α) : Prop := ∀ e, r = .error e → ¬ e.OfImport

theorem harmless_ok (a : α) : Harmless (.ok a : Except Failure α) := fun _ h => by cases h

theorem harmless_error {e : Failure} (he : ¬ e.OfImport) : Harmless (.error e : Except Failure α) := by
  rintro _ ⟨⟩
  exact he

theorem harmless_because {c : Cause} (hc : c.kind ≠ .importFailure) :
    Harmless (Failure.because c : Except Failure α) :=
  harmless_error hc

theorem harmless_lift (r : Except Fault α) : Harmless (Failure.lift r) := by
  cases r with
  | ok a => exact harmless_ok a
  | error f => exact harmless_error id

theorem Harmless.bind {r : Except Failure α} {f : α → Except Failure β} (hr : Harmless r)
    (hf : ∀ a, Harmless (f a)) : Harmless (r >>= f) := by
  cases r with
  | ok a => exact hf a
  | error e => exact harmless_error (hr e rfl)

end Failure

namespace Value

open Failure

theorem harmless_undefined {α : Type} (op : BinaryOp) (a b : Value) :
    Harmless (undefined op a b : Except Failure α) :=
  harmless_because fun h => by cases h

theorem harmless_shiftChar (c : CodePoint) (i : Int) : Harmless (shiftChar c i) := by
  unfold shiftChar
  dsimp only
  split
  · exact harmless_ok _
  · exact (harmless_lift _).bind fun _ => harmless_because fun h => by cases h

theorem harmless_add (a b : Value) : Harmless (a.add b) := by
  fun_cases Value.add a b with
  | case1 => exact harmless_lift _
  | case2 => exact harmless_lift _
  | case3 => exact harmless_lift _
  | case4 => exact harmless_shiftChar _ _
  | case5 => exact harmless_ok _
  | case6 => exact harmless_undefined _ _ _

theorem harmless_subtract (a b : Value) : Harmless (a.subtract b) := by
  fun_cases Value.subtract a b with
  | case1 => exact harmless_lift _
  | case2 => exact harmless_shiftChar _ _
  | case3 => exact harmless_undefined _ _ _

theorem harmless_multiply (a b : Value) : Harmless (a.multiply b) := by
  fun_cases Value.multiply a b with
  | case1 => exact harmless_lift _
  | case2 => exact harmless_undefined _ _ _

theorem harmless_divide (a b : Value) : Harmless (a.divide b) := by
  fun_cases Value.divide a b with
  | case1 => exact harmless_because fun h => by cases h
  | case2 => exact harmless_lift _
  | case3 => exact harmless_undefined _ _ _

theorem harmless_modulo (a b : Value) : Harmless (a.modulo b) := by
  fun_cases Value.modulo a b with
  | case1 => exact harmless_because fun h => by cases h
  | case2 => exact harmless_ok _
  | case3 => exact harmless_undefined _ _ _

theorem harmless_compared (op : BinaryOp) (a b : Value) (r : Option Bool) :
    Harmless (match r with
      | some r => .ok (.bool r)
      | none => undefined op a b : Except Failure Value) := by
  cases r with
  | some r => exact harmless_ok _
  | none => exact harmless_undefined _ _ _

theorem harmless_binary (op : BinaryOp) (a b : Value) : Harmless (Value.binary op a b) := by
  cases op with
  | add => exact harmless_add a b
  | subtract => exact harmless_subtract a b
  | multiply => exact harmless_multiply a b
  | divide => exact harmless_divide a b
  | modulo => exact harmless_modulo a b
  | less => exact harmless_compared _ _ _ _
  | greater => exact harmless_compared _ _ _ _
  | equal => exact harmless_ok _
  | notEqual => exact harmless_ok _
  | and => exact harmless_undefined _ _ _
  | or => exact harmless_undefined _ _ _

theorem harmless_unary (op : UnaryOp) (v : Value) : Harmless (Value.unary op v) := by
  cases op with
  | negate =>
    cases v with
    | number n => exact harmless_ok _
    | bool b => exact harmless_ok _
    | _ => exact harmless_because fun h => by cases h
  | head =>
    change Harmless v.head
    unfold head
    split
    · exact harmless_ok _
    · exact harmless_because fun h => by cases h
    · exact harmless_because fun h => by cases h
  | tail =>
    cases v with
    | text t => exact harmless_ok _
    | list items => exact harmless_ok _
    | _ => exact harmless_because fun h => by cases h

theorem harmless_truthy (v : Value) : Harmless v.truthy := by
  cases v with
  | bool b => exact harmless_ok _
  | text t => exact harmless_ok _
  | list items => exact harmless_ok _
  | _ => exact harmless_because fun h => by cases h

theorem harmless_expectText (n : Native) (v : Value) : Harmless (v.expectText n) := by
  cases v with
  | text t => exact harmless_ok _
  | char c => exact harmless_ok _
  | _ => exact harmless_because fun h => by cases h

theorem harmless_expectInt (n : Native) (v : Value) : Harmless (v.expectInt n) := by
  fun_cases Value.expectInt n v with
  | case1 => exact harmless_ok _
  | case2 => exact (harmless_lift _).bind fun _ => harmless_because fun h => by cases h

theorem harmless_expectItems (n : Native) (v : Value) : Harmless (v.expectItems n) := by
  unfold expectItems
  split
  · exact harmless_ok _
  · exact harmless_because fun h => by cases h

theorem harmless_numberRange (a b : Value) : Harmless (numberRange a b) :=
  (harmless_expectInt _ a).bind fun _ => (harmless_expectInt _ b).bind fun _ => harmless_ok _

theorem harmless_substring (v a b : Value) : Harmless (v.substring a b) := by
  refine (harmless_expectText _ v).bind fun t => (harmless_expectInt _ a).bind fun i =>
    (harmless_expectInt _ b).bind fun j => ?_
  split
  · exact harmless_ok _
  · exact (harmless_lift _).bind fun _ => (harmless_lift _).bind fun _ =>
      harmless_because fun h => by cases h

theorem harmless_parseInteger (v : Value) : Harmless v.parseInteger := by
  refine (harmless_expectText _ v).bind fun t => ?_
  dsimp only
  split
  · exact harmless_ok _
  · exact (harmless_lift _).bind fun _ => harmless_ok _

theorem harmless_reversed (v : Value) : Harmless v.reversed := by
  fun_cases Value.reversed v with
  | case1 => exact harmless_ok _
  | case2 => exact (harmless_expectItems _ v).bind fun _ => harmless_ok _

theorem harmless_applyNative? (n : Native) (args : List Value) {r : Except Failure Value}
    (hr : applyNative? n args = some r) : Harmless r := by
  fun_cases applyNative? n args with
  | case1 v => cases hr; exact harmless_ok _
  | case2 v => cases hr; exact (harmless_expectText _ v).bind fun _ => harmless_ok _
  | case3 v => cases hr; exact (harmless_expectText _ v).bind fun _ => harmless_ok _
  | case4 v first stop => cases hr; exact harmless_substring v first stop
  | case5 v => cases hr; exact harmless_parseInteger v
  | case6 v => cases hr; exact (harmless_expectText _ v).bind fun _ => harmless_ok _
  | case7 first stop => cases hr; exact harmless_numberRange first stop
  | case8 v => cases hr; exact harmless_reversed v
  | case9 v => cases hr; exact (harmless_expectItems _ v).bind fun _ => harmless_ok _
  | case10 => simp_all [applyNative?]

end Value

/-! ## Computations -/

namespace Eval

open Value

variable {α β ι : Type} {h : Host} {self : Step} {c : Context}

/-- If it fails, then not as an import does. -/
def Harmless (x : Eval α) : Prop := ∀ m e m', x m = .error e m' → ¬ e.OfImport

theorem harmless_pure (a : α) : Harmless (pure a) := fun _ _ _ he => by cases he

theorem harmless_throw {e : Failure} (he : ¬ e.OfImport) : Harmless (throw e : Eval α) := by
  rintro _ _ _ ⟨⟩
  exact he

theorem harmless_because {c : Cause} (hc : c.kind ≠ .importFailure) :
    Harmless (because c : Eval α) :=
  harmless_throw hc

theorem harmless_lift {r : Except Failure α} (hr : Failure.Harmless r) : Harmless (lift r) := by
  cases r with
  | ok a => exact harmless_pure a
  | error e => exact harmless_throw (hr e rfl)

/-- What always succeeds is harmless. -/
theorem harmless_of_ok {x : Eval α} (hx : ∀ m, ∃ a m', x m = .ok a m') : Harmless x := by
  intro m e m' he
  obtain ⟨a, k, ha⟩ := hx m
  rw [ha] at he
  cases he

theorem harmless_get {f : Machine → Eval α} (hf : ∀ m, Harmless (f m)) : Harmless (get >>= f) :=
  fun m => hf m m

theorem harmless_change {f : Machine → Except Failure Machine} (hf : ∀ m, Failure.Harmless (f m)) :
    Harmless (change f) := by
  intro m e m' he
  cases hr : f m with
  | ok k =>
    rw [change_of_ok hr] at he
    cases he
  | error e' =>
    rw [change_of_error hr] at he
    cases he
    exact hf m e hr

theorem Harmless.bind {x : Eval α} {f : α → Eval β} (hx : Harmless x) (hf : ∀ a, Harmless (f a)) :
    Harmless (x >>= f) := by
  intro m e m' he
  cases hr : x m with
  | ok a k =>
    rw [bind_of_ok hr] at he
    exact hf a k e m' he
  | error f k =>
    rw [bind_of_error hr] at he
    cases he
    exact hx m e m' hr

theorem Harmless.mending {x : Eval α} (hx : Harmless x) (f : Machine → Machine) :
    Harmless (Eval.mending x f) := by
  intro m e m' he
  obtain ⟨k, hk, -⟩ := mending_eq_error he
  exact hx m e k hk

/-- To place a report does not change its kind. -/
theorem ofImport_located {x : Eval α} {l : Location} {m m' : Machine} {e : Failure}
    (he : Eval.located h l x m = .error e m') :
    ∃ e', x m = .error e' m' ∧ (e.OfImport ↔ e'.OfImport) ∧
      ∀ r', e' = .report r' → ∃ r, e = .report r ∧ r.message = r'.message := by
  obtain ⟨e', hx, rfl⟩ := located_eq_placed he
  refine ⟨e', hx, ?_, ?_⟩
  · cases e' with
    | report r =>
      have hkind := r.kind_locate l (h.excerptAt l)
      exact ⟨fun hr => hkind.symm.trans hr, fun hr => hkind.trans hr⟩
    | fault | tooDeep => rfl
  · rintro r rfl
    exact ⟨_, rfl, r.message_locate l _⟩

theorem Harmless.located {x : Eval α} (hx : Harmless x) (h : Host) (l : Location) :
    Harmless (Eval.located h l x) := by
  intro m e m' he
  obtain ⟨e', he', hi, -⟩ := ofImport_located he
  rw [hi]
  exact hx m e' m' he'

theorem harmless_mapM {f : ι → Eval α} (hf : ∀ i, Harmless (f i)) (xs : List ι) :
    Harmless (xs.mapM f) := by
  induction xs with
  | nil => exact harmless_pure _
  | cons x xs ih =>
    simp only [List.mapM_cons]
    exact (hf x).bind fun _ => ih.bind fun _ => harmless_pure _

theorem harmless_foldlM {f : α → ι → Eval α} (hf : ∀ a i, Harmless (f a i)) (xs : List ι) (a : α) :
    Harmless (xs.foldlM f a) := by
  induction xs generalizing a with
  | nil => exact harmless_pure _
  | cons x xs ih =>
    simp only [List.foldlM_cons]
    exact (hf a x).bind fun b => ih b

theorem harmless_filterMapM {f : ι → Eval (Option α)} (hf : ∀ i, Harmless (f i)) (xs : List ι) :
    Harmless (xs.filterMapM f) := by
  induction xs with
  | nil => exact harmless_pure _
  | cons x xs ih =>
    simp only [List.filterMapM_cons]
    refine (hf x).bind fun o => ?_
    cases o with
    | none => exact ih
    | some a => exact ih.bind fun _ => harmless_pure _

theorem harmless_filterM {f : ι → Eval Bool} (hf : ∀ i, Harmless (f i)) (xs : List ι) :
    Harmless (xs.filterM f) := by
  have haux : ∀ (xs as : List ι), Harmless (xs.filterAuxM f as) := by
    intro xs
    induction xs with
    | nil => exact fun as => harmless_pure _
    | cons x xs ih =>
      intro as
      refine (hf x).bind fun b => ?_
      cases b with
      | true => exact ih _
      | false => exact ih _
  exact (haux xs []).bind fun _ => harmless_pure _

theorem harmless_forM {f : ι → Eval PUnit} (hf : ∀ i, Harmless (f i)) (xs : List ι) :
    Harmless (xs.forM f) := by
  induction xs with
  | nil => exact harmless_pure _
  | cons x xs ih => exact (hf x).bind fun _ => ih

/-! ## Single actions -/

theorem harmless_readSlot (code owner : Option ModulePath) (vis : Visibility) (n : Ident)
    (s : Slot) : Harmless (readSlot code owner vis n s) := by
  unfold readSlot
  split
  · exact harmless_because fun h => by cases h
  · split
    · exact harmless_because fun h => by cases h
    · exact harmless_pure _

theorem harmless_resolve (c : Context) (n : Ident) : Harmless (resolve c n) := by
  refine harmless_get fun m => ?_
  cases m.lookup c.scope n with
  | none => exact harmless_because fun h => by cases h
  | some r => exact (harmless_readSlot _ _ _ _ _).bind fun _ => harmless_pure _

theorem harmless_follow (c : Context) (walked : Text) (v : Value) (names : List Ident) :
    Harmless (follow c walked v names) := by
  induction names generalizing walked v with
  | nil => exact harmless_pure v
  | cons n rest ih =>
    cases v with
    | module id path =>
      refine harmless_get fun m => ?_
      cases (m.record id).member? n with
      | none => exact harmless_because fun h => by cases h
      | some p => exact (harmless_readSlot _ _ _ _ _).bind fun v => ih _ v
    | _ => exact harmless_because fun h => by cases h

theorem harmless_dotted (c : Context) (names : List Ident) : Harmless (dotted c names) := by
  cases names with
  | nil => exact harmless_pure _
  | cons n rest => exact (harmless_resolve c n).bind fun _ => harmless_follow c n _ rest

theorem harmless_enter (c : Context) (f : Frame) : Harmless (c.enter f) :=
  harmless_of_ok fun _ => ⟨_, _, rfl⟩

theorem harmless_define (c : Context) (n : Ident) (v : Value) (isPublic : Bool) :
    Harmless (define c n v isPublic) :=
  harmless_of_ok fun _ => ⟨_, _, rfl⟩

theorem harmless_newClosure (n : Option Ident) (vs : List Variant) : Harmless (newClosure n vs) :=
  harmless_of_ok fun _ => ⟨_, _, rfl⟩

theorem harmless_vary (c : Context) (n : Ident) (v : Variant) : Harmless (vary c n v) := by
  refine (harmless_resolve c n).bind fun r => ?_
  obtain ⟨r, existing⟩ := r
  cases existing with
  | closure f =>
    dsimp only
    split
    · exact harmless_because fun h => by cases h
    · refine (harmless_newClosure _ _).bind fun w => ?_
      exact (harmless_of_ok fun _ => ⟨_, _, rfl⟩).bind fun _ => harmless_pure _
  | _ => exact harmless_because fun h => by cases h

theorem harmless_openModule (c : Context) (isPublic : Bool) (n : Ident) :
    Harmless (openModule c isPublic n) := by
  have hregister : Harmless (register c n) := by
    intro m e m' he
    unfold register Machine.declareModule at he
    dsimp only at he
    split at he
    · cases he
    · rename_i hd
      split at hd
      · cases he
        cases hd
        exact fun h => by cases h
      · cases hd
  refine hregister.bind fun r => harmless_get fun m => ?_
  refine (harmless_define c n _ _).bind fun _ => ?_
  exact (harmless_enter c _).bind fun _ => harmless_pure _

theorem harmless_declareMembers (id : RecordId) (body : List Stmt) :
    Harmless (declareMembers id body) := by
  refine harmless_forM (fun ⟨n, v⟩ => harmless_change fun m => ?_) _
  have hd : Failure.Harmless ((m.record id).declare n v) := by
    unfold Record.declare
    split
    · exact Failure.harmless_ok _
    · split
      · exact Failure.harmless_ok _
      · exact Failure.harmless_because fun h => by cases h
  cases he : (m.record id).declare n v with
  | ok r => exact Failure.harmless_ok _
  | error e => exact Failure.harmless_error (hd e he)

/-! ## Calls and expressions -/

section Tasks

variable (hs : ∀ t, Harmless (self t))

include hs

theorem harmless_stmts (c : Context) (ss : List Stmt) : Harmless (self.stmts c ss) :=
  harmless_foldlM (fun _ s => hs (.eval c s)) ss .unit

theorem harmless_exprs (c : Context) (es : List Expr) : Harmless (self.exprs c es) :=
  harmless_mapM (fun e => hs (.eval c (.expr e))) es

omit hs in
theorem harmless_isTruthy (v : Value) : Harmless (isTruthy v) := harmless_lift (harmless_truthy v)

omit hs in
theorem harmless_write (t : Text) : Harmless (Eval.write t) := harmless_of_ok fun _ => ⟨_, _, rfl⟩

theorem harmless_ask (d : Demand) : Harmless (self.ask d) := (hs (.ask d)).bind fun _ => harmless_pure _

theorem harmless_output (t : Text) : Harmless (output self t) :=
  (harmless_ask hs (.write t)).bind fun _ => harmless_write t

theorem harmless_performNative (site : Site) (n : Native) (args : List Value) :
    Harmless (performNative self site n args) := by
  have hshown : Harmless (lift (shown args)) := harmless_lift (Failure.harmless_lift _)
  have htext : ∀ (v : Value), Harmless (lift (Failure.lift v.display)) :=
    fun v => harmless_lift (Failure.harmless_lift _)
  fun_cases performNative self site n args with
  | case1 args => exact hshown.bind fun t => (harmless_output hs t).bind fun _ => harmless_pure _
  | case2 args => exact hshown.bind fun t => (harmless_output hs _).bind fun _ => harmless_pure _
  | case3 prompt =>
    refine (htext prompt).bind fun t => (harmless_output hs t).bind fun _ => ?_
    exact harmless_of_ok fun _ => ⟨_, _, rfl⟩
  | case4 f xs =>
    refine (harmless_lift (harmless_expectItems _ xs)).bind fun items => ?_
    exact (harmless_mapM (fun x => hs _) items).bind fun _ => harmless_pure _
  | case5 f xs =>
    refine (harmless_lift (harmless_expectItems _ xs)).bind fun items => ?_
    refine Harmless.bind (harmless_filterM (fun x => ?_) items) fun _ => harmless_pure _
    exact (hs _).bind fun v => harmless_isTruthy v
  | case6 f start xs =>
    refine (harmless_lift (harmless_expectItems _ xs)).bind fun items => ?_
    exact harmless_foldlM (fun _ _ => hs _) items start
  | case7 n args _ _ _ _ _ _ r hr => exact harmless_lift (harmless_applyNative? n args hr)
  | case8 => exact harmless_because fun h => by cases h

theorem harmless_applyValue (site : Site) (f : Value) (args : List Value) :
    Harmless (applyValue self site f args) := by
  cases f with
  | native n =>
    exact (harmless_ask hs (.native n (Value.shapes args))).bind fun _ =>
      harmless_performNative hs site n args
  | closure f =>
    change Harmless (applyClosure self site f args)
    unfold applyClosure
    split
    · exact (harmless_enter _ _).bind fun d => hs _
    · exact harmless_because fun h => by cases h
  | _ => exact harmless_because fun h => by cases h

theorem harmless_shortCircuit (c : Context) (op : BinaryOp) (decisive : Bool) (a b : Expr) :
    Harmless (shortCircuit self c op decisive a b) := by
  have hoperand : ∀ v, Harmless (boolOperand op v) := by
    intro v
    cases v with
    | bool b => exact harmless_pure b
    | _ => exact harmless_because fun h => by cases h
  refine (hs _).bind fun v => (hoperand v).bind fun left => ?_
  split
  · exact harmless_pure _
  · exact (hs _).bind fun u => (hoperand u).bind fun _ => harmless_pure _

theorem harmless_operation (c : Context) (op : BinaryOp) (a b : Expr) :
    Harmless (binary self c op a b) := by
  fun_cases binary self c op a b with
  | case1 => exact harmless_shortCircuit hs c _ _ a b
  | case2 => exact harmless_shortCircuit hs c _ _ a b
  | case3 =>
    exact (hs _).bind fun left => (hs _).bind fun right => (harmless_ask hs _).bind fun _ =>
      harmless_lift (harmless_binary op left right)

theorem harmless_comprehend (c : Context) (element : Expr) (binder : Ident)
    (condition : Option Expr) (item : Value) :
    Harmless (comprehend self c element binder condition item) := by
  refine (harmless_enter c _).bind fun d => ?_
  have helement : Harmless (do return some (← self.expr d element) : Eval (Option Value)) :=
    (hs _).bind fun _ => harmless_pure _
  cases condition with
  | none => exact helement
  | some test =>
    refine (hs _).bind fun v => (harmless_isTruthy v).bind fun b => ?_
    cases b with
    | true => exact helement
    | false => exact harmless_pure _

theorem harmless_selectArm (c : Context) (subject : Value) (arms : List Arm) :
    Harmless (selectArm self c subject arms) := by
  induction arms with
  | nil =>
    refine (harmless_ask hs _).bind fun _ => (harmless_lift (Failure.harmless_lift _)).bind fun t => ?_
    exact harmless_because fun h => by cases h
  | cons arm rest ih =>
    obtain ⟨l, binder, guard, body⟩ := arm
    refine (harmless_enter c _).bind fun d => ?_
    cases guard with
    | none => exact hs _
    | some test =>
      refine (hs _).bind fun v => (harmless_isTruthy v).bind fun b => ?_
      cases b with
      | true => exact hs _
      | false => exact ih

theorem harmless_expr (c : Context) (e : Expr) : Harmless (expr self c e) := by
  cases e with
  | constant l k => exact harmless_pure _
  | unit l => exact harmless_pure _
  | name l n => exact (harmless_resolve c n).bind fun _ => harmless_pure _
  | dotted l names => exact harmless_dotted c names
  | list l elements => exact (harmless_exprs hs c elements).bind fun _ => harmless_pure _
  | range l first stop =>
    exact (hs _).bind fun low => (hs _).bind fun high => (harmless_ask hs _).bind fun _ =>
      harmless_lift (harmless_numberRange low high)
  | comprehension l element binder iterable condition =>
    refine (hs _).bind fun v => ?_
    cases v.items? with
    | none => exact harmless_because fun h => by cases h
    | some items =>
      refine Harmless.bind (harmless_filterMapM (fun x => ?_) items) fun _ => harmless_pure _
      exact harmless_comprehend hs c element binder condition x
  | unary l op operand =>
    exact (hs _).bind fun v => (harmless_ask hs _).bind fun _ => harmless_lift (harmless_unary op v)
  | binary l op left right => exact harmless_operation hs c op left right
  | binding l n initializer =>
    exact (hs _).bind fun v => (harmless_define c n v false).bind fun _ => harmless_pure _
  | lambda l n params body => exact harmless_newClosure _ _
  | call l callee arguments =>
    refine (hs _).bind fun f => (harmless_exprs hs c arguments).bind fun args => ?_
    exact harmless_applyValue hs c.site f args
  | cond l condition yes no =>
    refine (hs _).bind fun v => (harmless_isTruthy v).bind fun b => ?_
    cases b with
    | true => exact hs _
    | false => exact hs _
  | select l subject arms => exact (hs _).bind fun v => harmless_selectArm hs c v arms
  | block l statements =>
    exact (harmless_enter c _).bind fun d => harmless_stmts hs d statements
  | sequence l elements =>
    exact (harmless_enter c _).bind fun d => harmless_stmts hs d (elements.map .expr)

theorem harmless_declareModule (c : Context) (isPublic : Bool) (n : Ident) (body : List Stmt) :
    Harmless (declareModule self c isPublic n body) := by
  refine (harmless_openModule c isPublic n).bind fun o => Harmless.mending ?_ _
  refine (harmless_declareMembers o.id body).bind fun _ => ?_
  exact (harmless_stmts hs o.inner body).bind fun _ => harmless_pure _

theorem harmless_below (h : Host) (w : Work) (t : Task) : Harmless (self.below h w t) :=
  hs (t.after (h.platform.between w t.work))

omit hs in
theorem harmless_grants (d : Demand) : Failure.Harmless (h.grants d) := by
  cases d with
  | write t => exact Failure.harmless_lift (h.checkOutput t)
  | _ => exact Failure.harmless_ok _

theorem harmless_step {t : Task} (ht : t.isImport = false) : Harmless (step h self t) := by
  cases t with
  | apply site f args => exact harmless_applyValue (harmless_below hs h _) site f args
  | ask d => exact (harmless_lift (harmless_grants d)).bind fun _ => harmless_pure _
  | wait t => exact hs t
  | eval c s =>
    have hs := harmless_below hs h (.node s.construct s.location)
    refine Harmless.located ?_ h s.location
    cases s with
    | expr e => exact harmless_expr hs c e
    | publicBinding l n initializer =>
      exact (hs _).bind fun v => (harmless_define c n v true).bind fun _ => harmless_pure _
    | variation l n l' params body => exact harmless_vary c n _
    | module l isPublic n body => exact harmless_declareModule hs c isPublic n body
    | imports l names path => cases ht

end Tasks

/-- A run that throws at every import fails, if it does, not as an import does. -/
theorem harmless_watched (h : Host) (depth : Nat) (t : Task) :
    Harmless (watched h (fun t _ => t.isImport = false) (fun _ => throw .tooDeep) depth t) := by
  have hdeep : ∀ {α : Type}, Harmless (throw .tooDeep : Eval α) := harmless_throw id
  induction depth generalizing t with
  | zero => exact hdeep
  | succ depth ih =>
    intro m e m' he
    by_cases ht : t.isImport = false
    · have hw := @watched_of_check h (fun t _ => t.isImport = false) t m ht (fun _ => throw .tooDeep)
        depth
      rw [hw] at he
      exact harmless_step ih ht m e m' he
    · have hw := @watched_of_not_check h (fun t _ => t.isImport = false) t m ht
        (fun _ => throw .tooDeep) depth
      rw [hw] at he
      exact hdeep m e m' he

end Eval

end ModuleScript
