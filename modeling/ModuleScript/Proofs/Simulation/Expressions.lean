import ModuleScript.Proofs.Simulation.Basic

/-!
# Expressions keep a simulation

Where all the tasks that calls and expressions lead to agree, the calls and expressions do: one case
for each kind of native, value applied and expression.
-/

set_option autoImplicit false

namespace ModuleScript

open Eval

namespace Likeness

variable {k : Likeness}

theorem Bound.set {b b' : Bindings Slot} (hb : k.Bound b b') (n : Ident) {v v' : Value}
    (hv : k.Matches v v') : k.Bound (b.set n (.value v)) (b'.set n (.value v')) :=
  Bindings.Related.set hb ⟨v, v', rfl, rfl, hv⟩

theorem bound_single (n : Ident) {v v' : Value} (hv : k.Matches v v') :
    k.Bound [(n, .value v)] [(n, .value v')] :=
  .cons ⟨rfl, v, v', rfl, rfl, hv⟩ .nil

theorem frames_single (name : Text) (n : Ident) {v v' : Value} (hv : k.Matches v v') :
    k.Frames { name, bindings := [(n, .value v)] } { name, bindings := [(n, .value v')] } :=
  ⟨rfl, rfl, rfl, bound_single n hv⟩

theorem frames_empty (name : Text) : k.Frames { name } { name } :=
  ⟨rfl, rfl, rfl, .nil⟩

theorem frames_call {f f' : Closure} {v v' : Variant} {args args' : List Value}
    (hn : f.name = f'.name) (hp : v.params = v'.params) (ha : List.Forall₂ k.Matches args args') :
    k.Frames (callFrame f v args) (callFrame f' v' args') := by
  refine ⟨congrArg (·.getD "lambda") hn, rfl, rfl, ?_⟩
  unfold callFrame
  rw [hp]
  have hall : ∀ (ps : List Ident) (b b' : Bindings Slot), k.Bound b b' →
      k.Bound ((ps.zip args).foldl (fun b x => b.set x.1 (.value x.2)) b)
        ((ps.zip args').foldl (fun b x => b.set x.1 (.value x.2)) b') := by
    induction ha with
    | nil =>
      intro ps b b' hb
      simpa using hb
    | cons hv _ ih =>
      intro ps b b' hb
      cases ps with
      | nil => exact hb
      | cons p ps => exact ih ps _ _ (hb.set p hv)
  exact hall v'.params [] [] .nil

end Likeness

namespace Actions

variable {S : Actions} {self self' : Step} {w : S.World} {c c' : Context}

/-! ## Sequences of nodes -/

theorem exprs_agree (hf : S.Follows self self') {es : List Expr}
    (hc : ∀ e ∈ es, S.Code w c c' (.expr e)) :
    S.Agree w (fun w' => List.Forall₂ (S.Values w')) (self.exprs c es) (self'.exprs c' es) := by
  have hall : List.Forall₂ (fun e e' => e = e' ∧ S.Code w c c' (.expr e)) es es :=
    List.forall₂_same.mpr fun e he => ⟨rfl, hc e he⟩
  refine Worlds.agree_mapM (fun _ _ => values_later) ?_ hall
  rintro w' e _ hl ⟨rfl, he⟩
  exact hf.code (S.code_later hl he)

theorem stmts_agree (hf : S.Follows self self') {ss : List Stmt}
    (hc : ∀ s ∈ ss, S.Code w c c' s) :
    S.Agree w S.Values (self.stmts c ss) (self'.stmts c' ss) := by
  have hall : List.Forall₂ (fun s s' => s = s' ∧ S.Code w c c' s) ss ss :=
    List.forall₂_same.mpr fun s hs => ⟨rfl, hc s hs⟩
  refine Worlds.agree_foldlM ?_ hall (.plain rfl)
  rintro w' _ _ s _ hl _ ⟨rfl, hs⟩
  exact hf.code (S.code_later hl hs)

theorem decls_agree (hf : S.Follows self self') {ss ss' : List Stmt}
    (hd : List.Forall₂ (fun s s' => S.Decl w c s c' s') ss ss') :
    S.Agree w (fun w' a b => S.Seen c → S.Values w' a b) (self.stmts c ss) (self'.stmts c' ss') := by
  refine Worlds.agree_foldlM ?_ hd fun _ => .plain rfl
  intro w' _ _ s s' hl _ hs
  exact hf.decl (S.decl_later hl hs)

/-! ## Calls -/

theorem isTruthy_agrees {v v' : Value} (hv : S.Values w v v') :
    S.Agree w (fun _ => (· = ·)) (isTruthy v) (isTruthy v') := by
  unfold isTruthy
  rw [Likeness.truthy_eq hv]
  exact Worlds.agree_lift (ExceptRel.refl (fun _ => rfl) _)

theorem lift_agrees {r r' : Except Failure Value} (hr : ExceptRel (S.Values w) r r') :
    S.Agree w S.Values (lift r) (lift r') :=
  (Worlds.agree_lift hr).imp fun _ _ _ hl hv => values_later hl hv

theorem applyClosure_agrees (hf : S.Follows self self') {s s' : Site} {f f' : Closure}
    {args args' : List Value} (hs : S.Sites w s s') (hc : (S.like w).closure f f')
    (ha : List.Forall₂ (S.Values w) args args') :
    S.Agree w S.Values (applyClosure self s f args) (applyClosure self' s' f' args') := by
  unfold applyClosure
  have hv := S.variant hc args.length
  rw [← ha.length_eq]
  generalize f.variant? args.length = v, f'.variant? args.length = v' at hv
  cases hv with
  | none =>
    rw [S.arities hc, (S.like w).closure_name hc]
    exact Worlds.agree_because _
  | some hv =>
    have hframes := Likeness.frames_call ((S.like w).closure_name hc) hv.params ha
    refine (hv.enter hs hframes).bind fun w' d d' hl hbody => ?_
    rw [← hv.body]
    exact hf.code hbody

theorem shown_eq {args args' : List Value} (ha : List.Forall₂ (S.Values w) args args') :
    shown args = shown args' := by
  unfold shown
  rw [Likeness.mapM_display_eq ha]

theorem asking_agrees (hf : S.Follows self self') {α : Type} {P : S.World → α → α → Prop}
    {d d' : Demand} {x x' : Eval α} (hd : d = d')
    (hx : ∀ w', S.Later w w' → S.Agree w' P x x') :
    S.Agree w P (do self.ask d; x) (do self'.ask d'; x') := by
  subst hd
  have hask : S.Agree w (fun _ _ _ => True) (self.ask d) (self'.ask d) :=
    (hf.ask d).bind fun _ _ _ _ _ => Worlds.agree_pure trivial
  exact hask.bind fun w₁ _ _ hl _ => hx w₁ hl

theorem output_agrees (hf : S.Follows self self') (t : Text) :
    S.Agree w (fun _ _ _ => True) (output self t) (output self' t) :=
  asking_agrees hf rfl fun _ _ => S.write t

theorem writing_agrees (hf : S.Follows self self') {P : S.World → Value → Value → Prop}
    {r r' : Except Failure Text} {x x' : Eval Value} (hr : r = r') (f : Text → Text)
    (hx : ∀ w', S.Later w w' → S.Agree w' P x x') :
    S.Agree w P (do output self (f (← lift r)); x) (do output self' (f (← lift r')); x') := by
  subst hr
  have ht : S.Agree w (fun _ => (· = ·)) (lift r) (lift r) :=
    Worlds.agree_lift (ExceptRel.refl (fun _ => rfl) r)
  refine ht.bind fun w₁ t _ hl ht => ?_
  subst ht
  refine (output_agrees hf (f t)).bind fun w₂ _ _ hl' _ => ?_
  exact hx w₂ (S.later_trans hl hl')

theorem other_agrees (n : Native) {args args' : List Value}
    (ha : List.Forall₂ (S.Values w) args args') :
    S.Agree w S.Values
      (match Value.applyNative? n args with
        | some r => lift r
        | none => because (.arity n.name (Decimal.ofNat (n.arity.getD 0)) args.length))
      (match Value.applyNative? n args' with
        | some r => lift r
        | none => because (.arity n.name (Decimal.ofNat (n.arity.getD 0)) args'.length)) := by
  have hr := Likeness.applyNative?_matches n ha
  rw [ha.length_eq]
  generalize Value.applyNative? n args = r, Value.applyNative? n args' = r' at hr
  cases hr with
  | none => exact Worlds.agree_because _
  | some hr => exact lift_agrees hr

theorem items_agree (n : Native) {v v' : Value} (hv : S.Values w v v') :
    S.Agree w (fun _ => List.Forall₂ (S.Values w)) (lift (v.expectItems n))
      (lift (v'.expectItems n)) :=
  Worlds.agree_lift (Likeness.expectItems_matches n hv)

theorem apply_agrees (hf : S.Follows self self') {w' : S.World} {s s' : Site} {f f' : Value}
    {args args' : List Value} (hs : S.Sites w s s') (hv : S.Values w f f') (hl : S.Later w w')
    (ha : List.Forall₂ (S.Values w') args args') :
    S.Agree w' S.Values (self (.apply s f args)) (self' (.apply s' f' args')) :=
  hf.apply (S.sites_later hl hs) (values_later hl hv) ha

theorem fmap_agrees (hf : S.Follows self self') {s s' : Site} {f f' xs xs' : Value}
    (hs : S.Sites w s s') (hv : S.Values w f f') (hx : S.Values w xs xs') :
    S.Agree w S.Values (performNative self s .fmap [f, xs])
      (performNative self' s' .fmap [f', xs']) := by
  refine (items_agree .fmap hx).bind fun w₁ as bs hl hi => ?_
  have hmap : S.Agree w₁ (fun w' => List.Forall₂ (S.Values w'))
      (as.mapM fun x => self (.apply s f [x])) (bs.mapM fun x => self' (.apply s' f' [x])) := by
    refine Worlds.agree_mapM (fun _ _ => values_later) ?_ hi
    intro w₂ x y hl' hxy
    have hl₂ := S.later_trans hl hl'
    exact apply_agrees hf hs hv hl₂ (.cons (values_later hl₂ hxy) .nil)
  exact hmap.bind fun _ _ _ _ hr => Worlds.agree_pure (Likeness.matches_ofItems hr)

theorem filter_agrees (hf : S.Follows self self') {s s' : Site} {f f' xs xs' : Value}
    (hs : S.Sites w s s') (hv : S.Values w f f') (hx : S.Values w xs xs') :
    S.Agree w S.Values (performNative self s .filter [f, xs])
      (performNative self' s' .filter [f', xs']) := by
  refine (items_agree .filter hx).bind fun w₁ as bs hl hi => ?_
  have hkept : S.Agree w₁ (fun _ => List.Forall₂ (S.Values w))
      (as.filterM fun x => do isTruthy (← self (.apply s f [x])))
      (bs.filterM fun x => do isTruthy (← self' (.apply s' f' [x]))) := by
    refine Worlds.agree_filterM ?_ hi
    intro w₂ x y hl' hxy
    have hl₂ := S.later_trans hl hl'
    refine (apply_agrees hf hs hv hl₂ (.cons (values_later hl₂ hxy) .nil)).bind ?_
    intro w₃ a b _ hab
    exact isTruthy_agrees hab
  refine hkept.bind fun w₂ _ _ hl' hr => Worlds.agree_pure ?_
  exact Likeness.matches_ofItems (forall₂_later (S.later_trans hl hl') hr)

theorem fold_agrees (hf : S.Follows self self') {s s' : Site} {f f' a a' xs xs' : Value}
    (hs : S.Sites w s s') (hv : S.Values w f f') (ha : S.Values w a a') (hx : S.Values w xs xs') :
    S.Agree w S.Values (performNative self s .fold [f, a, xs])
      (performNative self' s' .fold [f', a', xs']) := by
  refine (items_agree .fold hx).bind fun w₁ as bs hl hi => ?_
  refine Worlds.agree_foldlM ?_ hi (values_later hl ha)
  intro w₂ acc acc' x y hl' hacc hxy
  have hl₂ := S.later_trans hl hl'
  exact apply_agrees hf hs hv hl₂ (.cons hacc (.cons (values_later hl₂ hxy) .nil))

theorem performNative_agrees (hf : S.Follows self self') {s s' : Site} (n : Native)
    {args args' : List Value} (hs : S.Sites w s s') (ha : List.Forall₂ (S.Values w) args args') :
    S.Agree w S.Values (performNative self s n args) (performNative self' s' n args') := by
  have hother := other_agrees n ha
  have hshown := shown_eq ha
  cases n with
  | print => exact writing_agrees hf hshown id fun _ _ => Worlds.agree_pure (.plain rfl)
  | println =>
    exact writing_agrees hf hshown (· ++ [CodePoint.newline]) fun _ _ => Worlds.agree_pure (.plain rfl)
  | input =>
    cases ha with
    | nil => exact hother
    | cons h₁ ha =>
      cases ha with
      | nil =>
        exact writing_agrees hf (congrArg Failure.lift h₁.display_eq) id fun _ _ => S.readLine
      | cons _ _ => exact hother
  | fmap =>
    cases ha with
    | nil => exact hother
    | cons h₁ ha =>
      cases ha with
      | nil => exact hother
      | cons h₂ ha =>
        cases ha with
        | nil => exact fmap_agrees hf hs h₁ h₂
        | cons _ _ => exact hother
  | filter =>
    cases ha with
    | nil => exact hother
    | cons h₁ ha =>
      cases ha with
      | nil => exact hother
      | cons h₂ ha =>
        cases ha with
        | nil => exact filter_agrees hf hs h₁ h₂
        | cons _ _ => exact hother
  | fold =>
    cases ha with
    | nil => exact hother
    | cons h₁ ha =>
      cases ha with
      | nil => exact hother
      | cons h₂ ha =>
        cases ha with
        | nil => exact hother
        | cons h₃ ha =>
          cases ha with
          | nil => exact fold_agrees hf hs h₁ h₂ h₃
          | cons _ _ => exact hother
  | _ => exact hother

theorem applyNative_agrees (hf : S.Follows self self') {s s' : Site} (n : Native)
    {args args' : List Value} (hs : S.Sites w s s') (ha : List.Forall₂ (S.Values w) args args') :
    S.Agree w S.Values (applyNative self s n args) (applyNative self' s' n args') := by
  unfold applyNative
  refine asking_agrees hf (by rw [Likeness.shapes_eq ha]) fun w₁ hl => ?_
  exact performNative_agrees hf n (S.sites_later hl hs) (forall₂_later hl ha)

theorem applyValue_agrees (hf : S.Follows self self') {s s' : Site} {f f' : Value}
    {args args' : List Value} (hs : S.Sites w s s') (hv : S.Values w f f')
    (ha : List.Forall₂ (S.Values w) args args') :
    S.Agree w S.Values (applyValue self s f args) (applyValue self' s' f' args') := by
  cases hv with
  | plain hv =>
    cases f with
    | native n => exact applyNative_agrees hf n hs ha
    | list _ => cases hv
    | closure _ => cases hv
    | module _ _ => cases hv
    | _ => exact Worlds.agree_because _
  | list _ => exact Worlds.agree_because _
  | closure hc => exact applyClosure_agrees hf hs hc ha
  | module _ => exact Worlds.agree_because _

/-! ## Expressions -/

theorem boolOperand_agrees (op : BinaryOp) {v v' : Value} (hv : S.Values w v v') :
    S.Agree w (fun _ => (· = ·)) (boolOperand op v) (boolOperand op v') := by
  cases hv with
  | @plain v _ =>
    cases v with
    | bool b => exact Worlds.agree_pure rfl
    | _ => exact Worlds.agree_because _
  | list _ => exact Worlds.agree_because _
  | closure _ => exact Worlds.agree_because _
  | module _ => exact Worlds.agree_because _

theorem shortCircuit_agrees (hf : S.Follows self self') (op : BinaryOp) (decisive : Bool)
    {a b : Expr} (ha : S.Code w c c' (.expr a)) (hb : S.Code w c c' (.expr b)) :
    S.Agree w S.Values (shortCircuit self c op decisive a b)
      (shortCircuit self' c' op decisive a b) := by
  unfold shortCircuit
  refine (hf.code ha).bind fun w₁ _ _ hl hv => ?_
  refine (boolOperand_agrees op hv).bind fun w₂ x y hl' hxy => ?_
  subst hxy
  by_cases hx : x = decisive
  · rw [if_pos hx, if_pos hx]
    exact Worlds.agree_pure (.plain rfl)
  · rw [if_neg hx, if_neg hx]
    refine (hf.code (S.code_later (S.later_trans hl hl') hb)).bind fun w₃ _ _ _ hv => ?_
    refine (boolOperand_agrees op hv).bind fun w₄ p q _ hpq => ?_
    subst hpq
    exact Worlds.agree_pure (.plain rfl)

theorem binary_agrees (hf : S.Follows self self') (op : BinaryOp) {a b : Expr}
    (ha : S.Code w c c' (.expr a)) (hb : S.Code w c c' (.expr b)) :
    S.Agree w S.Values (binary self c op a b) (binary self' c' op a b) := by
  have hstrict : S.Agree w S.Values
      (do let left ← self.expr c a; let right ← self.expr c b
          self.ask (.binary op left.shape right.shape); lift (Value.binary op left right))
      (do let left ← self'.expr c' a; let right ← self'.expr c' b
          self'.ask (.binary op left.shape right.shape); lift (Value.binary op left right)) := by
    refine (hf.code ha).bind fun w₁ _ _ hl hx => ?_
    refine (hf.code (S.code_later hl hb)).bind fun w₂ _ _ hl' hy => ?_
    have hx₂ := values_later hl' hx
    refine asking_agrees hf (by rw [hx₂.shape_eq, hy.shape_eq]) fun w₃ hl₃ => ?_
    exact lift_agrees (Likeness.binary_matches op (values_later hl₃ hx₂) (values_later hl₃ hy))
  cases op with
  | and => exact shortCircuit_agrees hf .and false ha hb
  | or => exact shortCircuit_agrees hf .or true ha hb
  | _ => exact hstrict

theorem deciding_agrees {α : Type} {P : S.World → α → α → Prop} {x x' : Eval Value}
    {y y' z z' : Eval α} (hx : S.Agree w S.Values x x')
    (hy : ∀ w', S.Later w w' → S.Agree w' P y y') (hz : ∀ w', S.Later w w' → S.Agree w' P z z') :
    S.Agree w P (do if ← isTruthy (← x) then y else z)
      (do if ← isTruthy (← x') then y' else z') := by
  refine hx.bind fun w₁ _ _ hl hv => ?_
  refine (isTruthy_agrees hv).bind fun w₂ b _ hl' hb => ?_
  subst hb
  have hl₂ := S.later_trans hl hl'
  cases b with
  | true => exact hy w₂ hl₂
  | false => exact hz w₂ hl₂

theorem comprehend_agrees (hf : S.Follows self self') {l : Location} {element iterable : Expr}
    {binder : Ident} {condition : Option Expr} {v v' : Value}
    (hc : S.Code w c c' (.expr (.comprehension l element binder iterable condition)))
    (hv : S.Values w v v') :
    S.Agree w (fun w' => Option.Rel (S.Values w')) (comprehend self c element binder condition v)
      (comprehend self' c' element binder condition v') := by
  refine (S.enter hc rfl (Likeness.frames_single "comprehension" binder hv)).bind ?_
  intro w₁ d d' hl hd
  have helement : ∀ w₂, S.Later w₁ w₂ → S.Agree w₂ (fun w' => Option.Rel (S.Values w'))
      (do return some (← self.expr d element)) (do return some (← self'.expr d' element)) := by
    intro w₂ hl'
    have hcode := S.code_later hl' (hd (.expr element) (.head _))
    exact (hf.code hcode).bind fun _ _ _ _ hr => Worlds.agree_pure (.some hr)
  cases condition with
  | none => exact helement w₁ (S.later_refl w₁)
  | some test =>
    have htest : S.Code w₁ d d' (.expr test) := hd _ (.tail _ (.tail _ (.head _)))
    exact deciding_agrees (hf.code htest) helement fun _ _ => Worlds.agree_pure .none

theorem selectArm_agrees (hf : S.Follows self self') {s : Stmt} {v v' : Value} {arms : List Arm}
    (hc : S.Code w c c' s) (hs : s.opens = true) (harms : ∀ t ∈ arms.flatMap Arm.parts, t ∈ s.parts)
    (hv : S.Values w v v') :
    S.Agree w S.Values (selectArm self c v arms) (selectArm self' c' v' arms) := by
  induction arms generalizing w with
  | nil =>
    unfold selectArm
    refine asking_agrees hf (by rw [hv.shape_eq]) fun w₁ _ => ?_
    rw [hv.nested_eq]
    have ht : S.Agree w₁ (fun _ => (· = ·)) (lift (Failure.lift v'.nested))
        (lift (Failure.lift v'.nested)) :=
      Worlds.agree_lift (ExceptRel.refl (fun _ => rfl) _)
    refine ht.bind fun _ t _ _ ht => ?_
    subst ht
    exact Worlds.agree_because _
  | cons arm rest ih =>
    obtain ⟨l, binder, guard, body⟩ := arm
    have hhere : ∀ t ∈ (Arm.mk l binder guard body).parts, t ∈ s.parts :=
      fun t ht => harms t (List.mem_flatMap.mpr ⟨_, .head _, ht⟩)
    have hrest : ∀ t ∈ rest.flatMap Arm.parts, t ∈ s.parts := by
      intro t ht
      obtain ⟨a, ha, hta⟩ := List.mem_flatMap.mp ht
      exact harms t (List.mem_flatMap.mpr ⟨a, .tail _ ha, hta⟩)
    have hbody : Stmt.expr body ∈ (Arm.mk l binder guard body).parts :=
      List.mem_append_right _ (.head _)
    refine (S.enter hc hs (Likeness.frames_single "match" binder hv)).bind ?_
    intro w₁ d d' hl hd
    have hrun : ∀ w₂, S.Later w₁ w₂ →
        S.Agree w₂ S.Values (self.expr d body) (self'.expr d' body) :=
      fun w₂ hl' => hf.code (S.code_later hl' (hd _ (hhere _ hbody)))
    cases guard with
    | none => exact hrun w₁ (S.later_refl w₁)
    | some test =>
      have htest : S.Code w₁ d d' (.expr test) := hd _ (hhere _ (.head _))
      refine deciding_agrees (hf.code htest) hrun fun w₂ hl' => ?_
      have hl₂ := S.later_trans hl hl'
      exact ih (S.code_later hl₂ hc) hrest (values_later hl₂ hv)

theorem expr_agrees (hf : S.Follows self self') {e : Expr} (hd : S.Defines c (.expr e))
    (hc : S.Code w c c' (.expr e)) :
    S.Agree w S.Values (Eval.expr self c e) (Eval.expr self' c' e) := by
  have hpart : ∀ {t : Expr}, Stmt.expr t ∈ (Stmt.expr e).inPlace → S.Code w c c' (.expr t) :=
    fun ht => S.code_part hc ht
  have hparts : ∀ {es : List Expr}, (∀ t ∈ es.map Stmt.expr, t ∈ (Stmt.expr e).inPlace) →
      ∀ t ∈ es, S.Code w c c' (.expr t) :=
    fun hes t ht => hpart (hes _ (List.mem_map_of_mem ht))
  cases e with
  | constant l k =>
    cases k <;> exact Worlds.agree_pure (.plain rfl)
  | unit l => exact Worlds.agree_pure (.plain rfl)
  | name l n => exact (S.name hc).bind fun _ _ _ _ hv => Worlds.agree_pure hv
  | dotted l names => exact S.dotted hc
  | list l elements =>
    have helements : ∀ t ∈ elements, S.Code w c c' (.expr t) := hparts fun _ ht => ht
    refine (exprs_agree hf helements).bind fun _ _ _ _ hvs => ?_
    exact Worlds.agree_pure (Likeness.matches_ofItems hvs)
  | range l first stop =>
    have hstop := hpart (t := stop) (.tail _ (.head _))
    refine (hf.code (hpart (.head _))).bind fun w₁ _ _ hl hx => ?_
    refine (hf.code (S.code_later hl hstop)).bind fun w₂ _ _ hl' hy => ?_
    have hx₂ := values_later hl' hx
    refine asking_agrees hf (by rw [hx₂.shape_eq, hy.shape_eq]) fun w₃ hl₃ => ?_
    exact lift_agrees (Likeness.numberRange_matches (values_later hl₃ hx₂) (values_later hl₃ hy))
  | comprehension l element binder iterable condition =>
    refine (hf.code (hpart (.head _))).bind fun w₁ v v' hl hv => ?_
    have hi := hv.items?
    rw [hv.typeName_eq]
    generalize v.items? = xs, v'.items? = ys at hi
    cases hi with
    | none => exact Worlds.agree_because _
    | @some as bs hi =>
      have hall : S.Agree w₁ (fun w' => List.Forall₂ (S.Values w'))
          (as.filterMapM (comprehend self c element binder condition))
          (bs.filterMapM (comprehend self' c' element binder condition)) := by
        refine Worlds.agree_filterMapM (fun _ _ => values_later) ?_ hi
        intro w₂ x y hl' hxy
        exact comprehend_agrees hf (S.code_later (S.later_trans hl hl') hc) (values_later hl' hxy)
      exact hall.bind fun _ _ _ _ hr => Worlds.agree_pure (Likeness.matches_ofItems hr)
  | unary l op operand =>
    refine (hf.code (hpart (.head _))).bind fun w₁ _ _ _ hv => ?_
    refine asking_agrees hf (by rw [hv.shape_eq]) fun w₂ hl => ?_
    exact lift_agrees (Likeness.unary_matches op (values_later hl hv))
  | binary l op left right =>
    exact binary_agrees hf op (hpart (.head _)) (hpart (.tail _ (.head _)))
  | binding l n initializer =>
    refine (hf.code (hpart (.head _))).bind fun w₁ _ _ hl hv => ?_
    have hbinds : (n, false) ∈ (Stmt.expr (.binding l n initializer)).binds := .head _
    have hdefine := S.define hd (S.code_later hl hc) hbinds hv
    exact hdefine.bind fun _ _ _ hl' _ => Worlds.agree_pure (values_later hl' hv)
  | lambda l n params body => exact S.lambda hc
  | call l callee arguments =>
    have hes : ∀ t ∈ arguments, S.Code w c c' (.expr t) := hparts fun _ ht => .tail _ ht
    refine (hf.code (hpart (.head _))).bind fun w₁ _ _ hl hx => ?_
    refine (exprs_agree hf fun t ht => S.code_later hl (hes t ht)).bind fun w₂ _ _ hl' hvs => ?_
    have hsite := S.sites_later (S.later_trans hl hl') (S.code_site hc)
    exact applyValue_agrees hf hsite (values_later hl' hx) hvs
  | cond l condition yes no =>
    have hyes := hpart (t := yes) (.tail _ (.head _))
    have hno := hpart (t := no) (.tail _ (.tail _ (.head _)))
    exact deciding_agrees (hf.code (hpart (.head _)))
      (fun _ hl => hf.code (S.code_later hl hyes)) (fun _ hl => hf.code (S.code_later hl hno))
  | select l subject arms =>
    refine (hf.code (hpart (.head _))).bind fun w₁ _ _ hl hv => ?_
    exact selectArm_agrees hf (S.code_later hl hc) rfl (fun _ ht => .tail _ ht) hv
  | block l statements =>
    refine (S.enter hc rfl (Likeness.frames_empty "block")).bind fun w₁ d d' _ hd => ?_
    exact stmts_agree hf hd
  | sequence l elements =>
    refine (S.enter hc rfl (Likeness.frames_empty "seq")).bind fun w₁ d d' _ hd => ?_
    exact stmts_agree hf hd

end Actions

end ModuleScript
