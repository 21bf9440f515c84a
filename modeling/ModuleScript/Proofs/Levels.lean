import ModuleScript.Eval.Run
import ModuleScript.Proofs.Names

/-!
# Waiting and asking

A task that waits is performed with as many levels less. Whether a demand is met does not depend on
the machine, and leaves it alone.
-/

set_option autoImplicit false

namespace ModuleScript

open Eval

namespace Task

@[simp]
theorem work_after (n : Nat) (t : Task) : (t.after n).work = t.work := by
  induction n with
  | zero => rfl
  | succ n ih => exact ih

theorem after_after (m n : Nat) (t : Task) : (t.after n).after m = t.after (m + n) := by
  induction m with
  | zero => rw [Nat.zero_add]; rfl
  | succ m ih =>
    rw [Nat.succ_add]
    exact congrArg wait ih

end Task

/-- Performs tasks so many levels further down. -/
def Step.later (self : Step) (n : Nat) : Step := fun t => self (t.after n)

/-- Performs tasks as a piece of work does that leads to them, if there is one. -/
def Step.under (self : Step) (h : Host) : Option Work → Step
  | none => self
  | some w => self.below h w

namespace Eval

variable {h : Host} {self : Step}

/-- Steps with fewer and fewer levels that hand on what waits perform it with the levels that are left. -/
theorem after_of_wait {β : Type} {f : Nat → Task → β} (hzero : ∀ t, f 0 (.wait t) = f 0 t)
    (hsucc : ∀ depth t, f (depth + 1) (.wait t) = f depth t) (depth n : Nat) (t : Task) :
    f depth (t.after n) = f (depth - n) t := by
  induction n generalizing depth with
  | zero => rfl
  | succ n ih =>
    cases depth with
    | zero =>
      have hrest := ih 0
      rw [Nat.zero_sub] at hrest ⊢
      exact (hzero _).trans hrest
    | succ depth =>
      rw [Nat.add_sub_add_right, ← ih]
      exact hsucc depth _

theorem run_after (h : Host) (depth n : Nat) (t : Task) :
    run h depth (t.after n) = run h (depth - n) t :=
  after_of_wait (fun _ => rfl) (fun _ _ => rfl) depth n t

/-- What a piece of work leads to is performed with the levels that are left. -/
theorem below_run (h : Host) (depth : Nat) (w : Work) (t : Task) :
    (run h depth).below h w t = run h (depth - h.platform.between w t.work) t :=
  run_after h depth _ t

theorem under_run (h : Host) (depth : Nat) (o : Option Work) (t : Task) :
    ∃ left, (run h depth).under h o t = run h left t := by
  cases o with
  | none => exact ⟨depth, rfl⟩
  | some w => exact ⟨_, below_run h depth w t⟩

theorem stmts_congr {self self' : Step} {c : Context} {ss : List Stmt}
    (h : ∀ s ∈ ss, self (.eval c s) = self' (.eval c s)) : self.stmts c ss = self'.stmts c ss := by
  have hall : ∀ v, ss.foldlM (fun _ s => self (.eval c s)) v =
      ss.foldlM (fun _ s => self' (.eval c s)) v := by
    induction ss with
    | nil => exact fun _ => rfl
    | cons s ss ih =>
      intro v
      simp only [List.foldlM_cons, h s (.head _), ih fun t ht => h t (.tail _ ht)]
  exact hall .unit

/-! ## Demands -/

/-- A demand is met or refused whatever the machine, and not with a report. -/
def Steady (x : Eval Unit) : Prop :=
  (∀ m, x m = .ok ⟨⟩ m) ∨ ∃ e, (∀ r, e ≠ .report r) ∧ ∀ m, x m = .error e m

theorem Steady.eq_of_ok {x : Eval Unit} (hx : Steady x) {m k : Machine} {u : Unit}
    (h : x m = .ok u k) : k = m := by
  rcases hx with hok | ⟨e, -, he⟩
  · rw [hok] at h
    cases h
    rfl
  · rw [he] at h
    cases h

theorem ask_run_succ (h : Host) (depth : Nat) (d : Demand) :
    (run h (depth + 1)).ask d = lift (h.grants d) := by
  change (lift (h.grants d) >>= fun _ => pure Value.unit) >>= (fun _ => pure Unit.unit) = _
  cases h.grants d <;> rfl

theorem grants_ne_report (h : Host) (d : Demand) (r : Report) : h.grants d ≠ .error (.report r) := by
  intro he
  cases d with
  | write t =>
    change Failure.lift (h.checkOutput t) = _ at he
    cases hc : h.checkOutput t with
    | ok u =>
      rw [hc] at he
      cases he
    | error f =>
      rw [hc] at he
      cases he
  | _ => cases he

theorem steady_ask_run (h : Host) (depth : Nat) (d : Demand) : Steady ((run h depth).ask d) := by
  cases depth with
  | zero => exact .inr ⟨.tooDeep, fun _ => Failure.noConfusion, fun _ => rfl⟩
  | succ depth =>
    rw [ask_run_succ]
    cases hd : h.grants d with
    | ok u => exact .inl fun _ => rfl
    | error e => exact .inr ⟨e, fun r he => grants_ne_report h d r (he ▸ hd), fun _ => rfl⟩

theorem ask_below_run (h : Host) (depth : Nat) (w : Work) (d : Demand) :
    ((run h depth).below h w).ask d = (run h (depth - h.platform.between w (.meet d))).ask d := by
  unfold Step.ask
  rw [below_run]
  rfl

theorem steady_ask_below (h : Host) (depth : Nat) (w : Work) (d : Demand) :
    Steady (((run h depth).below h w).ask d) := by
  rw [ask_below_run]
  exact steady_ask_run h _ d

end Eval

end ModuleScript
