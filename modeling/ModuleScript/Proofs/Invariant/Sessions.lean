import ModuleScript.Proofs.Invariant.Run
import ModuleScript.Proofs.Sessions

/-!
# Sessions keep an invariant

What a session is given keeps an invariant if the tasks do that it leads to. So every machine that a
session reaches is sound if the first one is.
-/

set_option autoImplicit false

namespace ModuleScript.Invariant

open Eval Condition Session

variable {I : Invariant} {quits : Fault → Prop} {self self' : Step} {m : Machine} {h : Host}

theorem execute_same (hf : I.Follows quits self self') (source : Text) {globals : FrameId}
    (hg : I.Placed m globals) (outer : List FrameId) (program : Program) :
    I.Same quits m (fun _ r => I.Good r.1) (execute self source globals outer program)
      (execute self' source globals outer program) := by
  refine (newSite_same source hg).bind fun _ site _ hsite => ?_
  have hstmts := stmts_same hf (c := top site outer) hsite program
  exact hstmts.bind fun _ _ _ hv => same_pure hv

theorem guarded_same {α : Type} {Q : Machine → α → Prop} {x y : Eval α}
    (hx : I.Same quits m Q x y) : I.Same quits m Q (guarded h x) (guarded h y) := by
  intro hm
  unfold guarded
  split
  · exact .error (moves_refl hm)
  · have he := hx hm
    generalize x m = r, y m = s at he
    cases he with
    | ok hm' hq => exact .ok hm' hq
    | @error e _ hm' =>
      cases e with
      | tooDeep => exact .error hm'
      | report r => exact .error hm'
      | fault f => exact .error hm'
    | quit hf => exact .quit hf

theorem runProgram_same (hf : I.Follows quits self self') (source : Text)
    (hg : I.Placed m globalFrame) (program : Program) :
    I.Same quits m (fun _ r => I.Good r.1) (runProgram h self source program)
      (runProgram h self' source program) :=
  guarded_same (execute_same hf source hg _ program)

theorem perform_same (hf : I.Follows quits self self') (hg : I.Placed m globalFrame)
    (command : Command) :
    I.Same quits m (fun _ => I.Good) (command.perform h self) (command.perform h self') := by
  cases command with
  | source name text =>
    refine same_lift_bind fun program _ => ?_
    exact (runProgram_same hf name hg program).bind fun _ _ _ hv => same_pure hv
  | file name =>
    unfold Command.perform
    dsimp only
    generalize h.disk.directory.resolve (Path.ofText name) = resolved
    refine same_lift_bind fun text _ => ?_
    refine (beginLoading_same resolved).bind fun m₁ _ hl _ => ?_
    have hg₁ := I.placed_later hl.later hg
    have hprogram : I.Same quits m₁ (fun _ r => I.Good r.1) (fileProgram h self name text)
        (fileProgram h self' name text) :=
      same_lift_bind fun program _ => runProgram_same hf _ hg₁ program
    have hmend : I.Same quits m₁ (fun _ r => I.Good r.1)
        (mending (fileProgram h self name text) (·.abortLoading resolved))
        (mending (fileProgram h self' name text) (·.abortLoading resolved)) := by
      intro hm₁
      refine hprogram.mending (moves_refl hm₁) fun k hk => ?_
      exact hk.trans (abortLoading_moves hk.sound resolved)
    refine hmend.bind fun m₂ r _ hr => ?_
    have hfinish : I.Same quits m₂ (fun _ _ => True)
        (change fun k => k.finishLoading resolved (k.exportsOf r.2))
        (change fun k => k.finishLoading resolved (k.exportsOf r.2)) :=
      same_change fun _ hm hk => finishLoading_moves hm (fun _ _ hv => (I.exporting hm).exports hv) hk
    exact hfinish.bind fun _ _ _ _ => same_pure hr

theorem loadPrelude_same (hf : I.Follows quits (run h h.ownDepth) (run h h.ownDepth))
    (hg : I.Placed m preludeFrame) :
    I.Same quits m (fun _ _ => True) (loadPrelude h) (loadPrelude h) := by
  refine same_lift_bind fun program _ => ?_
  exact (execute_same hf _ hg _ program).bind fun _ _ _ _ => same_pure trivial

/-! ## Reachable machines -/

/-- A computation that never gives up leaves a machine that keeps the invariant. -/
theorem moves_endOf {α : Type} {Q : Machine → α → Prop} {x : Eval α}
    (hx : I.Same never m Q x x) (hm : I.Sound m) : I.Moves m (endOf (x m)) := by
  rcases (hx hm).eq_or_quit with ⟨-, hmoves⟩ | ⟨_, _, hq, -⟩
  · exact hmoves
  · exact hq.elim

theorem start_moves (hf : ∀ depth, I.Follows never (run h depth) (run h depth)) {input : Text}
    (hs : I.Sound (blank input)) (hg : I.Placed (blank input) preludeFrame) :
    I.Moves (blank input) (start h input).machine := by
  unfold start
  split
  · have hload := moves_endOf (loadPrelude_same (hf _) hg) hs
    dsimp only
    generalize loadPrelude h (blank input) = r at hload ⊢
    cases r with
    | ok _ m => exact hload
    | error _ m => exact hload
  · exact moves_refl hs

/-- Whatever a session was given, its machine keeps the invariant. -/
theorem after_moves (hf : ∀ depth, I.Follows never (run h depth) (run h depth)) {input : Text}
    (hs : I.Sound (blank input)) (hg : ∀ i < 3, I.Placed (blank input) i)
    (history : List Command) :
    (after h input history).host = h ∧ I.Moves (blank input) (after h input history).machine := by
  induction history using List.reverseRecOn with
  | nil => exact ⟨start_host h input, start_moves hf hs (hg _ (by decide))⟩
  | append_singleton history c ih =>
    obtain ⟨hhost, hm⟩ := ih
    have hglobal := I.placed_later hm.later (hg globalFrame (by decide))
    rw [after_append, perform_session, hhost]
    exact ⟨rfl, hm.trans (moves_endOf (perform_same (hf _) hglobal c) hm.sound)⟩

end ModuleScript.Invariant
