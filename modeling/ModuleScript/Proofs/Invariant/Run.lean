import ModuleScript.Proofs.Invariant.Expressions
import ModuleScript.Proofs.Loading
import ModuleScript.Proofs.Watch

/-!
# Steps keep an invariant

Where the tasks below are the same in two runs and keep an invariant, so are the files, modules and
statements that lead to them. A module that fails is dropped again, and what there was before it was
opened is kept. So a step keeps what the tasks below it keep.
-/

set_option autoImplicit false

namespace ModuleScript

open Eval Condition

/-- Evaluates an expression that drops the first element of a list. -/
def Task.isTail : Task → Bool
  | .eval _ (.expr e) => e.isTail
  | _ => false

theorem exists_of_isTail {t : Task} (h : t.isTail = true) :
    ∃ c l e, t = .eval c (.expr (.unary l .tail e)) := by
  cases t with
  | apply | ask | wait => cases h
  | eval c s =>
    cases s with
    | expr e =>
      cases e with
      | unary l op e =>
        cases op with
        | tail => exact ⟨c, l, e, rfl⟩
        | _ => cases h
      | _ => cases h
    | _ => cases h

namespace Invariant

variable {I : Invariant} {quits : Fault → Prop} {self self' : Step} {m : Machine} {c : Context}
  {h : Host}

/-! ## Imports -/

theorem evaluateFile_same (hf : I.Follows quits self self') (path : Path) :
    I.Same quits m (fun _ e => ∀ n v, (n, v) ∈ e → I.Good v) (evaluateFile h self path)
      (evaluateFile h self' path) := by
  refine same_lift_bind fun source _ => asking_same hf _ fun _ => ?_
  refine same_lift_bind fun program _ => ?_
  refine (openFile_same path).bind fun m₁ site _ hsite => ?_
  refine (stmts_same hf hsite program).bind fun m₂ _ _ _ => same_get fun hm => ?_
  exact .ok (moves_refl hm) fun n v hv => (I.exporting hm).exports hv

theorem load_same (hf : I.Follows quits self self') (relative importer : Text) :
    I.Same quits m (fun _ e => ∀ n v, (n, v) ∈ e → I.Good v) (load h self relative importer)
      (load h self' relative importer) := by
  refine same_lift_bind fun path _ => same_get fun hm => ?_
  cases hl : m.loaded? path with
  | some e => exact .ok (moves_refl hm) ((I.exporting hm).loaded? hl)
  | none =>
    have hfresh : I.Same quits m (fun _ e => ∀ n v, (n, v) ∈ e → I.Good v)
        (loadFresh h self path) (loadFresh h self' path) := by
      refine (beginLoading_same path).bind fun m₁ _ _ _ => ?_
      have hfile : I.Same quits m₁ (fun _ e => ∀ n v, (n, v) ∈ e → I.Good v)
          (mending (evaluateFile h self path) (·.abortLoading path))
          (mending (evaluateFile h self' path) (·.abortLoading path)) := by
        intro hm₁
        refine (evaluateFile_same hf path).mending (moves_refl hm₁) fun m₂ hmoves => ?_
        exact hmoves.trans (abortLoading_moves hmoves.sound path)
      refine hfile.bind fun m₂ e _ he => ?_
      have hfinish : I.Same quits m₂ (fun _ _ => True) (change (·.finishLoading path e))
          (change (·.finishLoading path e)) :=
        same_change fun _ hk hd => finishLoading_moves hk he hd
      exact hfinish.bind fun _ _ _ _ => same_pure he
    refine (same_lift_bind fun isFile _ => ?_) hm
    cases isFile with
    | false => exact same_because _
    | true => exact hfresh

theorem bindImports_same (c : Context) (path : Text) {e : Exports}
    (he : ∀ n v, (n, v) ∈ e → I.Good v) (names : List Ident) :
    I.Same quits m (fun _ _ => True) (bindImports c path e names) (bindImports c path e names) := by
  induction names generalizing m with
  | nil => exact same_pure trivial
  | cons n rest ih =>
    unfold bindImports
    cases hv : e.get? n with
    | none => exact same_because _
    | some v => exact (define_same c n (he n v (Bindings.mem_of_get? hv)) false).bind fun _ _ _ _ => ih

theorem imports_same (hf : I.Follows quits self self') (c : Context) (names : List Ident)
    (path : Text) :
    I.Same quits m (fun _ => I.Good) (imports h self c names path) (imports h self' c names path) := by
  refine (load_same hf path c.site.source).bind fun _ e _ he => ?_
  exact (bindImports_same c path he names).bind fun _ _ _ _ => same_pure (good_plain rfl)

/-! ## Modules and statements -/

theorem declareModule_same (hf : I.Follows quits self self') (hc : I.Placed m c.scope.frame)
    (isPublic : Bool) (n : Ident) (body : List Stmt) :
    I.Same quits m (fun _ => I.Good) (declareModule self c isPublic n body)
      (declareModule self' c isPublic n body) := by
  intro hm
  unfold declareModule
  rcases openModule_cases c isPublic n m with ⟨o, m₁, ho⟩ | ⟨e, he⟩
  · rw [bind_of_ok ho, bind_of_ok ho]
    have hopens := opens_of_ok hm hc ho
    refine Same.mending hopens.moves ?_ hopens.closes
    refine (declareMembers_same o.id body).bind fun m₂ _ hl _ => ?_
    refine (stmts_same hf (I.placed_later hl.later hopens.placed) body).bind fun _ _ _ _ => ?_
    exact same_pure (I.atom fun _ hv => by cases hv)
  · rw [bind_of_error he, bind_of_error he]
    exact .error (moves_refl hm)

theorem stmt_same (hf : I.Follows quits self self') {s : Stmt}
    (hs : s.isModule = true → I.Placed m c.scope.frame) (ht : (Task.eval c s).isTail = false) :
    I.Same quits m (fun _ => I.Good) (stmt h self c s) (stmt h self' c s) := by
  cases s with
  | expr e => exact expr_same hf ht
  | publicBinding l n initializer =>
    refine (hf.expr c initializer).bind fun _ _ _ hv => ?_
    exact (define_same c n hv true).bind fun _ _ _ _ => same_pure hv
  | variation l n l' params body => exact vary_same c n _
  | module l isPublic n body => exact declareModule_same hf (hs rfl) isPublic n body
  | imports l names path => exact imports_same hf c names path

/-! ## Steps -/

theorem step_same (hf : I.Follows quits self self') {t : Task}
    (ht : I.Fits m t) (htail : t.isTail = false) :
    I.Same quits m (fun _ => I.Good) (step h self t) (step h self' t) := by
  cases t with
  | eval c s => exact (stmt_same (hf.below h _) ht htail).located h s.location
  | apply site f args => exact applyValue_same (hf.below h _) site ht.2
  | ask d => exact same_lift_bind fun _ _ => same_pure (good_plain rfl)
  | wait t => exact hf m t ht

/-- The first elements are dropped from good values; what is left may not be good. -/
theorem tail_same (hf : I.Follows quits self self') (c : Context) (l : Location) (e : Expr) :
    I.Same quits m (fun _ v => ∃ u, I.Good u ∧ u.tail = .ok v)
      (step h self (.eval c (.expr (.unary l .tail e))))
      (step h self' (.eval c (.expr (.unary l .tail e)))) := by
  refine Same.located ?_ h l
  have hbelow := hf.below h (.node .unary l)
  refine (hbelow.expr c e).bind fun _ u _ hu => asking_same hbelow _ fun _ => ?_
  exact same_lift fun v hv => ⟨u, hu, hv⟩

/-! ## Runs -/

/-- What is left of good values without their first elements is good. -/
def GoodTails (I : Invariant) : Prop := ∀ u v, I.Good u → u.tail = .ok v → I.Good v

theorem step_follows (hI : I.GoodTails) (hf : I.Follows quits self self') :
    I.Follows quits (step h self) (step h self') := by
  intro m t ht
  cases htail : t.isTail with
  | false => exact step_same hf ht htail
  | true =>
    obtain ⟨c, l, e, rfl⟩ := exists_of_isTail htail
    exact (tail_same hf c l e).imp fun _ v _ ⟨u, hu, hv⟩ => hI u v hu hv

theorem run_follows (h : Host) (hI : I.GoodTails) (depth : Nat) :
    I.Follows quits (run h depth) (run h depth) := by
  induction depth with
  | zero => exact follows_tooDeep (fun _ => rfl) fun _ => rfl
  | succ depth ih => exact step_follows hI ih

/-- What all fitting tasks on sound machines pass can be checked at every task. -/
theorem watched_follows {check : Task → Machine → Prop} (h : Host) (hI : I.GoodTails)
    (hcheck : ∀ m t, I.Sound m → I.Fits m t → check t m) (alarm : Step) (depth : Nat) :
    I.Follows quits (watched h check alarm depth) (run h depth) := by
  induction depth with
  | zero => exact follows_tooDeep (fun _ => rfl) fun _ => rfl
  | succ depth ih =>
    intro m t ht hm
    rw [watched_of_check (hcheck m t hm ht)]
    exact step_follows hI ih m t ht hm

theorem throughout_of_same {α : Type} {check : Task → Machine → Prop} {x : Step → Eval α}
    {Q : Machine → α → Prop} {depth : Nat} (hI : I.GoodTails) (hm : I.Sound m)
    (hcheck : ∀ m t, I.Sound m → I.Fits m t → check t m)
    (hx : ∀ {self self'}, I.Follows never self self' →
      I.Same never m Q (x self) (x self')) : Throughout h depth check x m := by
  intro alarm
  rcases (hx (watched_follows h hI hcheck alarm depth) hm).eq_or_quit with ⟨he, -⟩ | ⟨_, _, hq, -⟩
  · exact he
  · exact hq.elim

end Invariant

end ModuleScript
