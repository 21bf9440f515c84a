import ModuleScript.Proofs.Congruence.Basic
import ModuleScript.Proofs.Sessions

/-!
# Raising the recursion limit

A run at a smaller depth is the run at a greater depth or is cut short: nothing that evaluation does
absorbs the failure of a task at depth zero. So a command that does not end at the recursion limit
ends on the same machine, with the same value or failure, under every greater limit that evaluation
can be given. How many levels lie between tasks does not matter for this.
-/

set_option autoImplicit false

namespace ModuleScript

open Eval Session

/-- The host with another recursion limit. -/
def Host.withLimit (h : Host) (limit : Int) : Host := { h with recursionLimit := limit }

/-- The host with the same files and output on which no levels lie between a piece of work and one that
it leads to. -/
def Host.flat (h : Host) : Host :=
  { h with platform := { h.platform with
      between := fun _ _ => 0
      uniform := fun _ _ _ _ _ _ _ => rfl } }

namespace Limits

variable {α β : Type} {x y : Eval α} {stops stops' : Failure → Prop}

/-- The first computation is the second one or is cut short by a failure of this kind. -/
def Cut (stops : Failure → Prop) (x y : Eval α) : Prop :=
  ∀ m, x m = y m ∨ ∃ e k, stops e ∧ x m = .error e k

theorem cut_refl (x : Eval α) : Cut stops x x := fun _ => .inl rfl

theorem Cut.bind {f g : α → Eval β} (hx : Cut stops x y) (hf : ∀ a, Cut stops (f a) (g a)) :
    Cut stops (x >>= f) (y >>= g) := by
  intro m
  rcases hx m with he | ⟨e, k, hs, hk⟩
  · cases hy : y m with
    | ok a k =>
      rw [hy] at he
      rw [bind_of_ok he, bind_of_ok hy]
      exact hf a k
    | error e k =>
      rw [hy] at he
      rw [bind_of_error he, bind_of_error hy]
      exact .inl rfl
  · exact .inr ⟨e, k, hs, bind_of_error hk⟩

theorem Cut.mending (hx : Cut stops x y) (mend : Machine → Machine) :
    Cut stops (Eval.mending x mend) (Eval.mending y mend) := by
  intro m
  unfold Eval.mending
  rcases hx m with he | ⟨e, k, hs, hk⟩
  · rw [he]
    exact .inl rfl
  · rw [hk]
    exact .inr ⟨e, mend k, hs, rfl⟩

/-- To be cut short passes all that evaluation puts around a task, but for placing reports. -/
def cuttingBy (stops : Failure → Prop) : Congruence where
  Rel := Cut stops
  own {_ x} _ := cut_refl x
  bind := Cut.bind
  mending {_ _ _ mend} _ hx := hx.mending mend

theorem cuttingBy_files (stops : Failure → Prop) (h : Host) : (cuttingBy stops).Files h where
  reads _ _ _ := cut_refl _
  begins _ := cut_refl _
  aborts _ hx := hx.mending _
  finishes _ _ := cut_refl _

/-- To be cut short by a task at depth zero passes all that evaluation puts around it. -/
abbrev cutting : Congruence := cuttingBy (· = .tooDeep)

theorem cutting_places (h : Host) (l : Location) : cutting.Places h l := by
  intro _ x y hx m
  unfold Eval.located
  rcases hx m with he | ⟨e, k, rfl, hk⟩
  · rw [he]
    exact .inl rfl
  · rw [hk]
    exact .inr ⟨_, k, rfl, rfl⟩

/-! ## Runs -/

theorem run_cut (h : Host) {depth depth' : Nat} (hle : depth ≤ depth') :
    cutting.Follows (run h depth) (run h depth') := by
  induction depth generalizing depth' with
  | zero => exact fun t m => .inr ⟨_, m, rfl, rfl⟩
  | succ depth ih =>
    cases depth' with
    | zero => cases hle
    | succ depth' =>
      have hrest := ih (Nat.le_of_succ_le_succ hle)
      exact Congruence.step_follows hrest ((cuttingBy_files _ h).loads_below hrest) (cutting_places h)

/-- Levels between tasks do nothing but cut runs short. -/
theorem run_cut_flat (h : Host) {depth depth' : Nat} (hle : depth ≤ depth') :
    cutting.Follows (run h depth) (run h.flat depth') := by
  induction depth using Nat.strongRecOn generalizing depth' with
  | ind depth ih =>
    intro t
    cases depth with
    | zero => exact fun m => .inr ⟨_, m, rfl, rfl⟩
    | succ depth =>
      cases depth' with
      | zero => cases hle
      | succ depth' =>
        have hle := Nat.le_of_succ_le_succ hle
        have hbelow : ∀ w, cutting.Follows ((run h depth).below h w) (run h.flat depth') := by
          intro w t
          rw [below_run]
          exact ih _ (by omega) (by omega) t
        cases t with
        | eval c s =>
          have hloads := (cuttingBy_files (· = .tooDeep) h).loads (hbelow (.node s.construct s.location))
          exact cutting_places h s.location (Congruence.stmt (hbelow _) hloads c s)
        | apply site f args => exact Congruence.applyValue (hbelow _) site f args
        | ask d => exact cut_refl _
        | wait t => exact ih depth (Nat.lt_succ_self depth) hle t

/-- Tasks do not depend on the limit but through the depth. -/
theorem run_withLimit (h : Host) (limit : Int) (depth : Nat) :
    run (h.withLimit limit) depth = run h depth := by
  induction depth with
  | zero => rfl
  | succ depth ih =>
    unfold run
    rw [ih]
    rfl

theorem read_withLimit (h : Host) (limit : Int) (file source : Text) :
    (h.withLimit limit).read file source = h.read file source := rfl

theorem depth_le {low high : Int} (hle : low ≤ high) (h : Host) :
    (h.withLimit low).depth ≤ (h.withLimit high).depth := by
  have hnat : low.toNat ≤ high.toNat := Int.toNat_le_toNat hle
  unfold Host.depth Host.withLimit
  dsimp only
  omega

theorem runner_cut {low high : Int} (hle : low ≤ high) (h : Host) :
    cutting.Follows (h.withLimit low).runner (h.withLimit high).runner := by
  unfold Host.runner
  rw [run_withLimit, run_withLimit]
  exact run_cut h (depth_le hle h)

/-! ## Commands -/

/-- A report that the recursion limit has been reached. -/
def OfLimit : Failure → Prop
  | .report r => r.kind = .recursionLimit
  | _ => False

variable {low high : Int} {m : Machine}

theorem guarded_of_tooDeep {h : Host} {k : Machine} (hl : h.recursionLimit ≤ Host.largestLimit)
    (hk : x m = .error .tooDeep k) : guarded h x m = .error (.report h.tooDeepReport) k := by
  unfold guarded
  rw [if_neg (Int.not_lt.mpr hl), hk]

theorem guarded_of_not_tooDeep {h : Host} (hl : h.recursionLimit ≤ Host.largestLimit)
    (hx : ∀ k, x m ≠ .error .tooDeep k) : guarded h x m = x m := by
  unfold guarded
  rw [if_neg (Int.not_lt.mpr hl)]
  split
  · rename_i k hk
    exact absurd hk (hx k)
  · rfl

theorem guarded_cut (h : Host) (hle : low ≤ high) (hmax : high ≤ Host.largestLimit)
    (hx : cutting.Rel x y) :
    Cut OfLimit (guarded (h.withLimit low) x) (guarded (h.withLimit high) y) := by
  intro m
  by_cases hdeep : ∃ k, x m = .error .tooDeep k
  · obtain ⟨k, hk⟩ := hdeep
    exact .inr ⟨.report (h.withLimit low).tooDeepReport, k, rfl,
      guarded_of_tooDeep (Int.le_trans hle hmax) hk⟩
  · have hnot : ∀ k, x m ≠ .error .tooDeep k := fun k hk => hdeep ⟨k, hk⟩
    rcases hx m with he | ⟨_, k, rfl, hk⟩
    · have hnot' : ∀ k, y m ≠ .error .tooDeep k := he ▸ hnot
      have hlow := guarded_of_not_tooDeep (h := h.withLimit low) (Int.le_trans hle hmax) hnot
      have hhigh := guarded_of_not_tooDeep (h := h.withLimit high) hmax hnot'
      exact .inl (hlow.trans (he.trans hhigh.symm))
    · exact absurd hk (hnot k)

theorem perform_cut (h : Host) (hle : low ≤ high) (hmax : high ≤ Host.largestLimit)
    (command : Command) :
    Cut OfLimit (command.perform (h.withLimit low) (h.withLimit low).runner)
      (command.perform (h.withLimit high) (h.withLimit high).runner) := by
  have hprogram : ∀ source program,
      Cut OfLimit (runProgram (h.withLimit low) (h.withLimit low).runner source program)
        (runProgram (h.withLimit high) (h.withLimit high).runner source program) := by
    intro source program
    exact guarded_cut h hle hmax (Congruence.execute (runner_cut hle h) source _ _ program)
  cases command with
  | source name text =>
    exact (cut_refl _).bind fun program => (hprogram name program).bind fun _ => cut_refl _
  | file name =>
    refine (cut_refl _).bind fun text => (cut_refl _).bind fun _ => Cut.bind (Cut.mending ?_ _) ?_
    · exact (cut_refl _).bind fun program => hprogram _ program
    · exact fun _ => cut_refl _

/-- The evaluation has ended with the report that the recursion limit is reached. -/
def AtLimit (r : EStateM.Result Failure Machine α) : Prop := ∃ e k, OfLimit e ∧ r = .error e k

theorem perform_withLimit (h : Host) (hle : low ≤ high) (hmax : high ≤ Host.largestLimit)
    (command : Command) (m : Machine)
    (hends : ¬ AtLimit (command.perform (h.withLimit low) (h.withLimit low).runner m)) :
    command.perform (h.withLimit high) (h.withLimit high).runner m =
      command.perform (h.withLimit low) (h.withLimit low).runner m :=
  ((perform_cut h hle hmax command m).resolve_right hends).symm

/-! ## Sessions -/

/-- The prelude is loaded alike under every limit, since it is loaded under that outside evaluation. -/
theorem loadPrelude_withLimit (h : Host) (limit : Int) :
    loadPrelude (h.withLimit limit) = loadPrelude h := by
  unfold loadPrelude
  rw [read_withLimit, run_withLimit]
  rfl

theorem start_withLimit (h : Host) (low high : Int) (input : Text) :
    (start (h.withLimit low) input).machine = (start (h.withLimit high) input).machine := by
  rw [start_machine, start_machine, loadPrelude_withLimit, loadPrelude_withLimit]
  rfl

/-- A session none of whose commands ends at the recursion limit goes through the same machines
under every greater limit. -/
theorem after_withLimit (h : Host) (hle : low ≤ high) (hmax : high ≤ Host.largestLimit)
    (input : Text) (history : List Command)
    (hends : ∀ before command rest, history = before ++ command :: rest →
      ¬ AtLimit (command.perform (h.withLimit low) (h.withLimit low).runner
        (after (h.withLimit low) input before).machine)) :
    (after (h.withLimit high) input history).machine =
      (after (h.withLimit low) input history).machine := by
  induction history using List.reverseRecOn with
  | nil => exact start_withLimit h high low input
  | append_singleton history command ih =>
    have hhistory := ih fun before c rest hbefore =>
      hends before c (rest ++ [command]) (by rw [hbefore]; simp)
    have hlast := perform_withLimit h hle hmax command _ (hends history command [] rfl)
    rw [after_machine, after_machine, hhistory]
    exact congrArg endOf hlast

def one : Command := .source "<input>" "1"

def isOne : Value → Bool
  | .number (.int i) => i == 1
  | _ => false

theorem one_ends : endsWith isOne (one.perform ((hostWith []).withLimit 1000)
    ((hostWith []).withLimit 1000).runner (blank "")) = true := by decide +kernel

/-- Under a limit that evaluation cannot be given every source that is read fails. -/
theorem perform_limitTooLarge {h : Host} (hl : Host.largestLimit < h.recursionLimit)
    {name text : Text} {program : Program} (hr : h.read name text = .ok program) (m : Machine) :
    (Command.source name text).perform h h.runner m = .error (.fault .limitTooLarge) m := by
  have hguarded : runProgram h h.runner name program m = .error (.fault .limitTooLarge) m := by
    unfold runProgram guarded
    rw [if_pos hl]
  change (lift (h.read name text) >>= fun program => runProgram h h.runner name program >>=
    fun r => pure r.1) m = _
  rw [hr]
  change (runProgram h h.runner name program >>= fun r => pure r.1) m = _
  exact bind_of_error hguarded

end Limits

end ModuleScript
