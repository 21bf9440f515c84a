import ModuleScript.Proofs.Levels
import ModuleScript.Proofs.Lexical

/-!
# Watched runs

A watched run checks every task before performing it and hands a task that fails the check to an
alarm instead. A check holds throughout a computation when no alarm can make a difference to it:
then no task that fails the check is ever performed. A vetted run checks how tasks end instead.
-/

set_option autoImplicit false

namespace ModuleScript

def Task.isVariation : Task → Bool
  | .eval _ s => s.isVariation
  | _ => false

def Stmt.isImport : Stmt → Bool
  | .imports _ _ _ => true
  | _ => false

def Task.isImport : Task → Bool
  | .eval _ s => s.isImport
  | _ => false

namespace Eval

variable {α : Type}

open Classical in
/-- Performs tasks that pass the check; the others go to `alarm`. -/
noncomputable def watched (h : Host) (check : Task → Machine → Prop) (alarm : Step) : Nat → Step
  | 0 => fun _ => throw .tooDeep
  | depth + 1 => fun t m =>
    if check t m then step h (watched h check alarm depth) t m else alarm t m

/-- Every task that a computation performs passes the check on the machine it is performed on. -/
def Throughout (h : Host) (depth : Nat) (check : Task → Machine → Prop) (x : Step → Eval α)
    (m : Machine) : Prop :=
  ∀ alarm, x (watched h check alarm depth) m = x (run h depth) m

theorem watched_of_check {h : Host} {check : Task → Machine → Prop} {t : Task} {m : Machine}
    (ht : check t m) (alarm : Step) (depth : Nat) :
    watched h check alarm (depth + 1) t m = step h (watched h check alarm depth) t m :=
  if_pos ht

theorem watched_of_not_check {h : Host} {check : Task → Machine → Prop} {t : Task} {m : Machine}
    (ht : ¬ check t m) (alarm : Step) (depth : Nat) :
    watched h check alarm (depth + 1) t m = alarm t m :=
  if_neg ht

theorem watched_of_always {h : Host} {check : Task → Machine → Prop} (hcheck : ∀ t m, check t m)
    (alarm : Step) (depth : Nat) : watched h check alarm depth = run h depth := by
  induction depth with
  | zero => rfl
  | succ depth ih =>
    funext t m
    rw [watched_of_check (hcheck t m), ih]
    rfl

/-- If waiting passes the check, what a piece of work leads to is watched with the levels that are
left. -/
theorem watched_below {h : Host} {check : Task → Machine → Prop} (hc : ∀ t m, check (.wait t) m)
    (alarm : Step) (depth : Nat) (w : Work) (t : Task) :
    (watched h check alarm depth).below h w t =
      watched h check alarm (depth - h.platform.between w t.work) t :=
  after_of_wait (fun _ => rfl) (fun depth t => funext fun m => watched_of_check (hc t m) alarm depth)
    depth _ t

/-- What every task passes holds throughout. -/
theorem throughout_of_always {h : Host} {check : Task → Machine → Prop}
    (hcheck : ∀ t m, check t m) (depth : Nat) (x : Step → Eval α) (m : Machine) :
    Throughout h depth check x m :=
  fun alarm => by rw [watched_of_always hcheck]

/-- No outcome of a task is the outcome of every alarm. -/
theorem exists_alarm_ne (t : Task) (m : Machine) (r : EStateM.Result Failure Machine Value) :
    ∃ alarm : Step, alarm t m ≠ r := by
  cases r with
  | ok v m' => exact ⟨fun _ => throw .tooDeep, fun h => by cases h⟩
  | error e m' => exact ⟨fun _ => pure .unit, fun h => by cases h⟩

/-- A check holds throughout a task exactly when the task passes it and it holds throughout the step
that performs the task. -/
theorem throughout_task_iff (h : Host) (depth : Nat) (check : Task → Machine → Prop) (t : Task)
    (m : Machine) :
    Throughout h (depth + 1) check (fun self => self t) m ↔
      check t m ∧ Throughout h depth check (fun self => step h self t) m := by
  constructor
  · intro ht
    have hc : check t m := by
      refine Classical.byContradiction fun hc => ?_
      obtain ⟨alarm, hne⟩ := exists_alarm_ne t m (run h (depth + 1) t m)
      exact hne ((watched_of_not_check hc alarm depth).symm.trans (ht alarm))
    exact ⟨hc, fun alarm => (watched_of_check hc alarm depth).symm.trans (ht alarm)⟩
  · rintro ⟨hc, ht⟩ alarm
    exact (watched_of_check hc alarm depth).trans (ht alarm)

/-- There are two faults with which a computation has not failed. -/
theorem exists_markers (r : EStateM.Result Failure Machine α) :
    ∃ f f' : Fault, f ≠ f' ∧ (∀ k, r ≠ .error (.fault f) k) ∧ ∀ k, r ≠ .error (.fault f') k := by
  have hother : ∀ {f g : Fault} {k : Machine}, f ≠ g → r = .error (.fault f) k →
      ∀ k', r ≠ .error (.fault g) k' := by
    rintro f g k hne rfl k' he
    cases he
    exact hne rfl
  by_cases hr : ∃ k, r = .error (.fault .notLoading) k
  · obtain ⟨k, hk⟩ := hr
    exact ⟨.limitTooLarge, .undecodable, by decide, hother (by decide) hk, hother (by decide) hk⟩
  · by_cases hr' : ∃ k, r = .error (.fault .limitTooLarge) k
    · obtain ⟨k, hk⟩ := hr'
      exact ⟨.notLoading, .undecodable, by decide, fun k he => hr ⟨k, he⟩, hother (by decide) hk⟩
    · exact ⟨.notLoading, .limitTooLarge, by decide, fun k he => hr ⟨k, he⟩,
        fun k he => hr' ⟨k, he⟩⟩

theorem exists_marker (r : EStateM.Result Failure Machine α) :
    ∃ marker : Fault, ∀ k, r ≠ .error (.fault marker) k := by
  obtain ⟨f, -, -, hf, -⟩ := exists_markers r
  exact ⟨f, hf⟩

/-! ## How tasks end -/

abbrev Outcome := EStateM.Result Failure Machine Value

open Classical in
/-- Performs tasks; one that does not end as the check demands is handed to `alarm`. -/
noncomputable def vetted (h : Host) (check : Task → Machine → Outcome → Prop) (alarm : Step) :
    Nat → Step
  | 0 => fun _ => throw .tooDeep
  | depth + 1 => fun t m =>
    if check t m (step h (vetted h check alarm depth) t m) then
      step h (vetted h check alarm depth) t m
    else alarm t m

/-- Every task that a computation performs ends as the check demands. -/
def AllEnd (h : Host) (depth : Nat) (check : Task → Machine → Outcome → Prop) (x : Step → Eval α)
    (m : Machine) : Prop :=
  ∀ alarm, x (vetted h check alarm depth) m = x (run h depth) m

section Vetted

variable {h : Host} {check : Task → Machine → Outcome → Prop} {alarm : Step} {depth : Nat}
  {t : Task} {m : Machine}

theorem vetted_of_check (hc : check t m (step h (vetted h check alarm depth) t m)) :
    vetted h check alarm (depth + 1) t m = step h (vetted h check alarm depth) t m :=
  if_pos hc

theorem vetted_of_not_check (hc : ¬ check t m (step h (vetted h check alarm depth) t m)) :
    vetted h check alarm (depth + 1) t m = alarm t m :=
  if_neg hc

/-- If nothing is demanded of waiting, what a piece of work leads to is vetted with the levels that are
left. -/
theorem vetted_below (hc : ∀ t m r, check (.wait t) m r) (w : Work) (t : Task) :
    (vetted h check alarm depth).below h w t =
      vetted h check alarm (depth - h.platform.between w t.work) t :=
  after_of_wait (fun _ => rfl) (fun _ t => funext fun m => vetted_of_check (hc t m _)) depth _ t

end Vetted

end Eval

end ModuleScript
