import ModuleScript.Proofs.Invariant.Values

/-!
# Expressions keep an invariant

Where all the tasks that calls and expressions lead to are the same in two runs and keep an
invariant, so are the calls and expressions, and their values are good: one case for each kind of
native, value applied and expression. An expression that drops the first element of a list has to
be dealt with apart.
-/

set_option autoImplicit false

namespace ModuleScript

open Eval Condition

/-- Drops the first element of what it is applied to. -/
def Expr.isTail : Expr → Bool
  | .unary _ op _ => op.isTail
  | _ => false

namespace Invariant

variable (I : Invariant) (quits : Fault → Prop)

/-- A module is declared only where one may be, and only good values are applied to each other. -/
def Fits (m : Machine) : Task → Prop
  | .eval c s => s.isModule = true → I.Placed m c.scope.frame
  | .apply _ f args => I.Good f ∧ ∀ v ∈ args, I.Good v
  | .ask _ => True
  | .wait t => Fits m t

theorem fits_after {I : Invariant} {m : Machine} (n : Nat) (t : Task) :
    I.Fits m (t.after n) ↔ I.Fits m t := by
  induction n with
  | zero => exact .rfl
  | succ n ih => exact ih

theorem Fits.imp {I J : Invariant} {m n : Machine} {t : Task}
    (hp : ∀ i, I.Placed m i → J.Placed n i) (hg : ∀ v, I.Good v → J.Good v) (ht : I.Fits m t) :
    J.Fits n t := by
  induction t with
  | eval c s => exact fun hs => hp _ (ht hs)
  | apply site f args => exact ⟨hg f ht.1, fun v hv => hg v (ht.2 v hv)⟩
  | ask d => trivial
  | wait t ih => exact ih ht

/-- Two steps do the same on all tasks that fit, keep the invariant and yield good values; the first
of them may give up. -/
def Follows (next next' : Step) : Prop :=
  ∀ m t, I.Fits m t → I.Same quits m (fun _ => I.Good) (next t) (next' t)

variable {I quits} {self self' : Step} {m : Machine} {c : Context}

theorem follows_tooDeep {next next' : Step} (hs : ∀ t, next t = throw .tooDeep)
    (hs' : ∀ t, next' t = throw .tooDeep) : I.Follows quits next next' := by
  intro m t _
  rw [hs, hs']
  exact same_throw _

theorem Follows.below (hf : I.Follows quits self self') (h : Host) (w : Work) :
    I.Follows quits (self.below h w) (self'.below h w) :=
  fun m t ht => hf m _ ((fits_after _ t).mpr ht)

theorem asking_same {α : Type} {Q : Machine → α → Prop} (hf : I.Follows quits self self')
    (d : Demand) {x x' : Eval α} (hx : ∀ m', I.Same quits m' Q x x') :
    I.Same quits m Q (do self.ask d; x) (do self'.ask d; x') := by
  have hask : I.Same quits m (fun _ _ => True) (self.ask d) (self'.ask d) :=
    (hf m (.ask d) trivial).bind fun _ _ _ _ => same_pure trivial
  exact hask.bind fun m' _ _ _ => hx m'

/-! ## Sequences of nodes -/

theorem Follows.expr (hf : I.Follows quits self self') (c : Context) (e : Expr) :
    I.Same quits m (fun _ => I.Good) (self.expr c e) (self'.expr c e) := by
  refine hf m _ fun h => ?_
  cases h

theorem Follows.apply (hf : I.Follows quits self self') (site : Site) {f : Value}
    {args : List Value} (hv : I.Good f) (ha : ∀ v ∈ args, I.Good v) :
    I.Same quits m (fun _ => I.Good) (self (.apply site f args)) (self' (.apply site f args)) :=
  hf m _ ⟨hv, ha⟩

theorem exprs_same (hf : I.Follows quits self self') (c : Context) (es : List Expr) :
    I.Same quits m (fun _ vs => ∀ v ∈ vs, I.Good v) (self.exprs c es) (self'.exprs c es) :=
  same_mapM fun _ e _ _ => hf.expr c e

theorem stmts_same (hf : I.Follows quits self self') (hc : I.Placed m c.scope.frame)
    (ss : List Stmt) : I.Same quits m (fun _ => I.Good) (self.stmts c ss) (self'.stmts c ss) := by
  refine same_foldlM (fun m' _ s hl _ _ => ?_) (good_plain rfl)
  exact hf m' _ fun _ => I.placed_later hl hc

/-! ## Calls -/

theorem isTruthy_same (v : Value) :
    I.Same quits m (fun _ _ => True) (isTruthy v) (isTruthy v) :=
  same_lift fun _ _ => trivial

theorem yields_same {r : Except Failure Value} (hr : I.Yields r) :
    I.Same quits m (fun _ => I.Good) (lift r) (lift r) :=
  same_lift hr

theorem callFrame_bindings (f : Closure) (v : Variant) {args : List Value}
    (ha : ∀ v ∈ args, I.Good v) :
    ∀ n s, (n, s) ∈ (callFrame f v args).bindings → ∃ u, s = .value u ∧ I.Good u := by
  have hall : ∀ (ps : List (Ident × Value)) (b : Bindings Slot), (∀ p ∈ ps, I.Good p.2) →
      (∀ n s, (n, s) ∈ b → ∃ u, s = .value u ∧ I.Good u) →
      ∀ n s, (n, s) ∈ ps.foldl (fun b p => b.set p.1 (.value p.2)) b →
        ∃ u, s = .value u ∧ I.Good u := by
    intro ps
    induction ps with
    | nil =>
      intro b _ hb
      exact hb
    | cons p ps ih =>
      intro b hp hb
      refine ih (b.set p.1 (.value p.2)) (fun q hq => hp q (.tail _ hq)) fun n s hs => ?_
      rcases Bindings.mem_set hs with hs | ⟨-, rfl⟩
      · exact hb n s hs
      · exact ⟨p.2, rfl, hp p (.head _)⟩
  refine hall _ _ (fun p hp => ?_) fun _ _ hb => by cases hb
  exact ha p.2 (List.of_mem_zip (show (p.1, p.2) ∈ v.params.zip args from hp)).2

theorem applyClosure_same (hf : I.Follows quits self self') (site : Site) (f : Closure)
    {args : List Value} (ha : ∀ v ∈ args, I.Good v) :
    I.Same quits m (fun _ => I.Good) (applyClosure self site f args)
      (applyClosure self' site f args) := by
  unfold applyClosure
  cases f.variant? args.length with
  | none => exact same_because _
  | some v =>
    have henter : I.Same quits m (fun m' d => I.Placed m' d.scope.frame)
        (Context.enter ⟨site, v.scope, v.module⟩ (callFrame f v args))
        (Context.enter ⟨site, v.scope, v.module⟩ (callFrame f v args)) :=
      enter_same rfl (callFrame_bindings f v ha)
    exact henter.bind fun _ d _ _ => hf.expr d v.body

theorem writing_same (hf : I.Follows quits self self') {Q : Machine → Value → Prop}
    {x : Eval Value} (r : Except Failure Text) (f : Text → Text)
    (hx : ∀ m', I.Same quits m' Q x x) :
    I.Same quits m Q (do output self (f (← lift r)); x) (do output self' (f (← lift r)); x) := by
  have ht : I.Same quits m (fun _ _ => True) (lift r) (lift r) := same_lift fun _ _ => trivial
  refine ht.bind fun _ t _ _ => ?_
  have houtput : ∀ m', I.Same quits m' (fun _ _ => True) (output self (f t)) (output self' (f t)) :=
    fun m' => asking_same hf _ fun _ => write_same (f t)
  exact (houtput _).bind fun m' _ _ _ => hx m'

theorem items_same (n : Native) {v : Value} (hv : I.Good v) :
    I.Same quits m (fun _ vs => ∀ u ∈ vs, I.Good u) (lift (v.expectItems n))
      (lift (v.expectItems n)) :=
  same_lift fun _ hi => good_expectItems n hv hi

theorem fmap_same (hf : I.Follows quits self self') (site : Site) {f xs : Value} (hv : I.Good f)
    (hx : I.Good xs) :
    I.Same quits m (fun _ => I.Good) (performNative self site .fmap [f, xs])
      (performNative self' site .fmap [f, xs]) := by
  refine (items_same .fmap hx).bind fun m₁ vs _ hvs => ?_
  have hmap : I.Same quits m₁ (fun _ us => ∀ u ∈ us, I.Good u)
      (vs.mapM fun x => self (.apply site f [x])) (vs.mapM fun x => self' (.apply site f [x])) :=
    same_mapM fun _ v _ hv' => hf.apply site hv (List.forall_mem_singleton.mpr (hvs v hv'))
  exact hmap.bind fun _ _ _ hr => same_pure (I.ofItems hr)

theorem filter_same (hf : I.Follows quits self self') (site : Site) {f xs : Value} (hv : I.Good f)
    (hx : I.Good xs) :
    I.Same quits m (fun _ => I.Good) (performNative self site .filter [f, xs])
      (performNative self' site .filter [f, xs]) := by
  refine (items_same .filter hx).bind fun m₁ vs _ hvs => ?_
  have hkept : I.Same quits m₁ (fun _ us => ∀ u ∈ us, I.Good u)
      (vs.filterM fun x => do isTruthy (← self (.apply site f [x])))
      (vs.filterM fun x => do isTruthy (← self' (.apply site f [x]))) := by
    refine same_filterM (fun m' v _ hv' => ?_) hvs
    have happly := hf.apply (m := m') site hv (List.forall_mem_singleton.mpr (hvs v hv'))
    exact happly.bind fun _ u _ _ => isTruthy_same u
  exact hkept.bind fun _ _ _ hr => same_pure (I.ofItems hr)

theorem fold_same (hf : I.Follows quits self self') (site : Site) {f a xs : Value} (hv : I.Good f)
    (ha : I.Good a) (hx : I.Good xs) :
    I.Same quits m (fun _ => I.Good) (performNative self site .fold [f, a, xs])
      (performNative self' site .fold [f, a, xs]) := by
  refine (items_same .fold hx).bind fun m₁ vs _ hvs => ?_
  refine same_foldlM (fun m' b v _ hb hv' => hf.apply site hv ?_) ha
  exact List.forall_mem_cons.mpr ⟨hb, List.forall_mem_singleton.mpr (hvs v hv')⟩

theorem performNative_same (hf : I.Follows quits self self') (site : Site) (n : Native)
    {args : List Value} (ha : ∀ v ∈ args, I.Good v) :
    I.Same quits m (fun _ => I.Good) (performNative self site n args)
      (performNative self' site n args) := by
  have hunit : ∀ {m'}, I.Same quits m' (fun _ => I.Good) (pure Value.unit) (pure .unit) :=
    same_pure (good_plain rfl)
  fun_cases performNative self site n args with
  | case1 args => exact writing_same hf (shown args) id fun _ => hunit
  | case2 args => exact writing_same hf (shown args) (· ++ [CodePoint.newline]) fun _ => hunit
  | case3 prompt => exact writing_same hf (Failure.lift prompt.display) id fun _ => readLine_same
  | case4 f xs => exact fmap_same hf site (ha f (by simp)) (ha xs (by simp))
  | case5 f xs => exact filter_same hf site (ha f (by simp)) (ha xs (by simp))
  | case6 f start xs =>
    exact fold_same hf site (ha f (by simp)) (ha start (by simp)) (ha xs (by simp))
  | case7 _ _ hprint hprintln hinput hfmap hfilter hfold r hr =>
    rw [performNative.eq_7 self' site n args hprint hprintln hinput hfmap hfilter hfold, hr]
    exact yields_same (yields_applyNative? n ha hr)
  | case8 _ _ hprint hprintln hinput hfmap hfilter hfold hr =>
    rw [performNative.eq_7 self' site n args hprint hprintln hinput hfmap hfilter hfold, hr]
    exact same_because _

theorem applyNative_same (hf : I.Follows quits self self') (site : Site) (n : Native)
    {args : List Value} (ha : ∀ v ∈ args, I.Good v) :
    I.Same quits m (fun _ => I.Good) (applyNative self site n args)
      (applyNative self' site n args) :=
  asking_same hf _ fun _ => performNative_same hf site n ha

theorem applyValue_same (hf : I.Follows quits self self') (site : Site) {f : Value}
    {args : List Value} (ha : ∀ v ∈ args, I.Good v) :
    I.Same quits m (fun _ => I.Good) (applyValue self site f args)
      (applyValue self' site f args) := by
  cases f with
  | native n => exact applyNative_same hf site n ha
  | closure f => exact applyClosure_same hf site f ha
  | _ => exact same_because _

/-! ## Expressions -/

theorem boolOperand_same (op : BinaryOp) (v : Value) :
    I.Same quits m (fun _ _ => True) (boolOperand op v) (boolOperand op v) := by
  cases v with
  | bool b => exact same_pure trivial
  | _ => exact same_because _

theorem shortCircuit_same (hf : I.Follows quits self self') (op : BinaryOp) (decisive : Bool)
    (a b : Expr) :
    I.Same quits m (fun _ => I.Good) (shortCircuit self c op decisive a b)
      (shortCircuit self' c op decisive a b) := by
  unfold shortCircuit
  refine (hf.expr c a).bind fun _ u _ _ => ?_
  refine (boolOperand_same op u).bind fun _ x _ _ => ?_
  by_cases hx : x = decisive
  · rw [if_pos hx, if_pos hx]
    exact same_pure (good_plain rfl)
  · rw [if_neg hx, if_neg hx]
    refine (hf.expr c b).bind fun _ v _ _ => ?_
    exact (boolOperand_same op v).bind fun _ _ _ _ => same_pure (good_plain rfl)

theorem binary_same (hf : I.Follows quits self self') (op : BinaryOp) (a b : Expr) :
    I.Same quits m (fun _ => I.Good) (binary self c op a b) (binary self' c op a b) := by
  have hstrict : I.Same quits m (fun _ => I.Good)
      (do let left ← self.expr c a; let right ← self.expr c b
          self.ask (.binary op left.shape right.shape); lift (Value.binary op left right))
      (do let left ← self'.expr c a; let right ← self'.expr c b
          self'.ask (.binary op left.shape right.shape); lift (Value.binary op left right)) := by
    refine (hf.expr c a).bind fun _ _ _ hu => ?_
    refine (hf.expr c b).bind fun _ _ _ hv => asking_same hf _ fun _ => ?_
    exact yields_same (yields_binary op hu hv)
  cases op with
  | and => exact shortCircuit_same hf .and false a b
  | or => exact shortCircuit_same hf .or true a b
  | _ => exact hstrict

theorem deciding_same {α : Type} {Q : Machine → α → Prop} {x x' : Eval Value}
    {y y' z z' : Eval α} (hx : I.Same quits m (fun _ => I.Good) x x')
    (hy : ∀ m', I.Same quits m' Q y y') (hz : ∀ m', I.Same quits m' Q z z') :
    I.Same quits m Q (do if ← isTruthy (← x) then y else z)
      (do if ← isTruthy (← x') then y' else z') := by
  refine hx.bind fun _ v _ _ => (isTruthy_same v).bind fun m₂ b _ _ => ?_
  cases b with
  | true => exact hy m₂
  | false => exact hz m₂

theorem comprehend_same (hf : I.Follows quits self self') (element : Expr) (binder : Ident)
    (condition : Option Expr) {v : Value} (hv : I.Good v) :
    I.Same quits m (fun _ o => ∀ u, o = some u → I.Good u)
      (comprehend self c element binder condition v)
      (comprehend self' c element binder condition v) := by
  refine (enter_single_same "comprehension" binder hv).bind fun m₁ d _ _ => ?_
  have helement : ∀ m₂, I.Same quits m₂ (fun _ o => ∀ u, o = some u → I.Good u)
      (do return some (← self.expr d element)) (do return some (← self'.expr d element)) := by
    intro m₂
    refine (hf.expr d element).bind fun _ w _ hw => same_pure ?_
    rintro _ ⟨⟩
    exact hw
  cases condition with
  | none => exact helement m₁
  | some test =>
    refine deciding_same (hf.expr d test) helement fun _ => same_pure ?_
    intro u hu
    cases hu

theorem selectArm_same (hf : I.Follows quits self self') {v : Value} (hv : I.Good v)
    (arms : List Arm) :
    I.Same quits m (fun _ => I.Good) (selectArm self c v arms) (selectArm self' c v arms) := by
  induction arms generalizing m with
  | nil =>
    have hshown : ∀ m', I.Same quits m' (fun _ _ => True) (lift (Failure.lift v.nested))
        (lift (Failure.lift v.nested)) := fun _ => same_lift fun _ _ => trivial
    refine asking_same hf _ fun m' => ?_
    exact (hshown m').bind fun _ _ _ _ => same_because _
  | cons arm rest ih =>
    obtain ⟨l, binder, guard, body⟩ := arm
    refine (enter_single_same "match" binder hv).bind fun m₁ d _ _ => ?_
    cases guard with
    | none => exact hf.expr d body
    | some test => exact deciding_same (hf.expr d test) (fun _ => hf.expr d body) fun _ => ih

theorem good_ofConstant (k : Constant) : I.Good (Value.ofConstant k) := by
  cases k <;> exact good_plain rfl

theorem expr_same (hf : I.Follows quits self self') {e : Expr} (he : e.isTail = false) :
    I.Same quits m (fun _ => I.Good) (expr self c e) (expr self' c e) := by
  cases e with
  | constant l k => exact same_pure (good_ofConstant k)
  | unit l => exact same_pure (good_plain rfl)
  | name l n => exact (resolve_same c n).bind fun _ _ _ hr => same_pure hr
  | dotted l names => exact dotted_same c names
  | list l elements =>
    exact (exprs_same hf c elements).bind fun _ _ _ hvs => same_pure (I.ofItems hvs)
  | range l first stop =>
    refine (hf.expr c first).bind fun _ u _ _ => (hf.expr c stop).bind fun _ v _ _ => ?_
    exact asking_same hf _ fun _ => yields_same (yields_numberRange u v)
  | comprehension l element binder iterable condition =>
    refine (hf.expr c iterable).bind fun m₁ v _ hv => ?_
    cases hi : v.items? with
    | none => exact same_because _
    | some items =>
      have hitems : I.Same quits m₁ (fun _ us => ∀ u ∈ us, I.Good u)
          (items.filterMapM (comprehend self c element binder condition))
          (items.filterMapM (comprehend self' c element binder condition)) :=
        same_filterMapM fun _ u _ hu =>
          comprehend_same hf element binder condition (good_items hv hi u hu)
      exact hitems.bind fun _ _ _ hus => same_pure (I.ofItems hus)
  | unary l op operand =>
    refine (hf.expr c operand).bind fun _ _ _ hv => asking_same hf _ fun _ => ?_
    exact yields_same (yields_unary he hv)
  | binary l op left right => exact binary_same hf op left right
  | binding l n initializer =>
    refine (hf.expr c initializer).bind fun _ _ _ hv => ?_
    exact (define_same c n hv false).bind fun _ _ _ _ => same_pure hv
  | lambda l n params body => exact newClosure_same n _
  | call l callee arguments =>
    refine (hf.expr c callee).bind fun _ _ _ _ => ?_
    exact (exprs_same hf c arguments).bind fun _ _ _ hargs => applyValue_same hf c.site hargs
  | cond l condition yes no =>
    exact deciding_same (hf.expr c condition) (fun _ => hf.expr c yes) fun _ => hf.expr c no
  | select l subject arms =>
    exact (hf.expr c subject).bind fun _ _ _ hv => selectArm_same hf hv arms
  | block l statements =>
    exact (enter_empty_same "block").bind fun _ _ _ hd => stmts_same hf hd statements
  | sequence l elements =>
    exact (enter_empty_same "seq").bind fun _ _ _ hd => stmts_same hf hd (elements.map .expr)

end Invariant

end ModuleScript
