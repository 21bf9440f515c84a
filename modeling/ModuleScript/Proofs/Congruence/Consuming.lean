import ModuleScript.Proofs.Congruence.Basic
import ModuleScript.Proofs.Sessions

/-!
# Input is only consumed

Whatever evaluation does, the input that it leaves is an end of the input that it was given.
-/

set_option autoImplicit false

namespace ModuleScript

open Eval Session

namespace Consuming

variable {α β : Type}

/-- A computation leaves an end of the input. -/
def Consumes (x : Eval α) : Prop := ∀ m, (endOf (x m)).input <:+ m.input

theorem consumes_of_modest {x : Eval α} (hx : Modest x) : Consumes x := fun m => (hx.ends m).input

theorem consumes_lift (r : Except Failure α) : Consumes (Eval.lift r) := fun m =>
  ((reads_lift r).modest_end m).input

theorem Consumes.bind {x : Eval α} {f : α → Eval β} (hx : Consumes x) (hf : ∀ a, Consumes (f a)) :
    Consumes (x >>= f) := by
  intro m
  have hxm := hx m
  cases he : x m with
  | ok a k =>
    rw [he] at hxm
    rw [bind_of_ok he]
    exact (hf a k).trans hxm
  | error e k =>
    rw [he] at hxm
    rw [bind_of_error he]
    exact hxm

theorem Consumes.mending {x : Eval α} {mend : Machine → Machine} (hx : Consumes x)
    (hmend : ∀ m, (mend m).input <:+ m.input) : Consumes (Eval.mending x mend) := by
  intro m
  rcases endOf_mending x mend m with hend | hend
  · rw [hend]
    exact hx m
  · rw [hend]
    exact (hmend _).trans (hx m)

theorem consumes_change {f : Machine → Except Failure Machine}
    (hf : ∀ m k, f m = .ok k → k.input = m.input) : Consumes (Eval.change f) := by
  intro m
  cases hk : f m with
  | ok k =>
    rw [change_of_ok hk]
    exact hf m k hk ▸ List.suffix_rfl
  | error e =>
    rw [change_of_error hk]
    exact List.suffix_rfl

def consuming : Congruence where
  Rel x _ := Consumes x
  own := consumes_of_modest
  bind := Consumes.bind
  mending hmend hx := hx.mending fun m => (hmend m).input

theorem consuming_places (h : Host) (l : Location) : consuming.Places h l := by
  intro _ x y hx m
  rw [endOf_located]
  exact hx m

theorem consumes_begin (p : Path) : Consumes (change (·.beginLoading p)) := by
  refine consumes_change fun m k hk => ?_
  unfold Machine.beginLoading at hk
  split at hk
  · cases hk
  · cases hk
    rfl

theorem consumes_finish (p : Path) (e : Machine → Exports) :
    Consumes (change fun m => m.finishLoading p (e m)) := by
  refine consumes_change fun m k hk => ?_
  unfold Machine.finishLoading at hk
  split at hk
  · cases hk
    rfl
  · cases hk

theorem consuming_files (h : Host) : consuming.Files h where
  reads _ _ _ := consumes_lift _
  begins := consumes_begin
  aborts _ hx := hx.mending fun _ => List.suffix_rfl
  finishes := consumes_finish

theorem run_consuming (h : Host) (depth : Nat) : consuming.Follows (run h depth) (run h depth) := by
  induction depth with
  | zero => exact fun t m => List.suffix_rfl
  | succ depth ih =>
    exact Congruence.step_follows ih ((consuming_files h).loads_below ih) (consuming_places h)

/-! ## Commands -/

theorem consumes_guarded {x : Eval α} (h : Host) (hx : Consumes x) : Consumes (guarded h x) := by
  intro m
  have hxm := hx m
  unfold guarded
  split
  · exact List.suffix_rfl
  · cases he : x m with
    | ok a k =>
      rw [he] at hxm
      exact hxm
    | error e k =>
      rw [he] at hxm
      cases e <;> exact hxm

theorem consumes_perform (h : Host) (command : Command) :
    Consumes (command.perform h h.runner) := by
  have hprogram : ∀ source program, Consumes (runProgram h h.runner source program) :=
    fun source program => consumes_guarded h
      (Congruence.execute (C := consuming) (run_consuming h h.depth) source _ _ program)
  cases command with
  | source name text =>
    refine (consumes_lift _).bind fun program => ?_
    exact (hprogram name program).bind fun _ => consumes_of_modest (modest_pure _)
  | file name =>
    refine (consumes_lift _).bind fun text => ?_
    refine (consumes_begin _).bind fun _ => Consumes.bind (Consumes.mending ?_ ?_) fun r => ?_
    · exact (consumes_lift _).bind fun program => hprogram _ program
    · exact fun _ => List.suffix_rfl
    · exact (consumes_finish _ fun m => m.exportsOf r.2).bind fun _ =>
        consumes_of_modest (modest_pure _)

/-- The input that a session has left after a command. -/
theorem perform_input (s : Session) (command : Command) :
    (s.perform fun h => command.perform h h.runner).2.machine.input <:+ s.machine.input := by
  rw [perform_session]
  exact consumes_perform s.host command s.machine

/-- A session that starts has not been given more input. -/
theorem start_input (h : Host) (input : Text) : (start h input).machine.input <:+ input := by
  rw [start_machine]
  split
  · have hload : Consumes (loadPrelude h) := by
      refine (consumes_lift _).bind fun program => ?_
      exact Consumes.bind (Congruence.execute (C := consuming) (run_consuming h h.ownDepth) _ _ _ program)
        fun _ => consumes_of_modest (modest_pure _)
    exact hload (blank input)
  · exact List.suffix_rfl

end Consuming

end ModuleScript
