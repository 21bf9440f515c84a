import ModuleScript.Proofs.Sessions
import ModuleScript.Proofs.Simulation.Run

/-!
# Commands keep a simulation

Where the tasks that a session's commands lead to agree, the commands do, provided that the programs
they evaluate may be run by both sessions.
-/

set_option autoImplicit false

namespace ModuleScript

open Eval Session

theorem Worlds.Agree.guarded {S : Worlds} {α β : Type} {w : S.World} {P : S.World → α → β → Prop}
    {x : Eval α} {y : Eval β} (hx : S.Agree w P x y) (h : Host) :
    S.Agree w P (Session.guarded h x) (Session.guarded h y) := by
  intro m n hm
  unfold Session.guarded
  split
  · exact .error (S.later_refl w) hm
  · have he := hx m n hm
    generalize x m = r, y n = s at he
    cases he with
    | ok hl hm hp => exact .ok hl hm hp
    | @error _ e _ _ hl hm =>
      cases e with
      | tooDeep => exact .error hl hm
      | report r => exact .error hl hm
      | fault f => exact .error hl hm

namespace Simulation

variable {h : Host} {S : Simulation h} {self self' : Step} {w : S.World}

/-- Both runs may evaluate their programs in the frame, and the values are of interest. -/
def Runs (S : Simulation h) (w : S.World) (source : Text) (globals : FrameId) (outer : List FrameId)
    (program program' : Program) : Prop :=
  S.Agree w (fun w' s s' => S.Sites w' s s' ∧ S.Seen (top s outer) ∧
      List.Forall₂ (fun st st' => S.Decl w' (top s outer) st (top s' outer) st') program program')
    (newSite source globals) (newSite source globals)

/-- Values that correspond, with the exports of sources that do. -/
def Executed (S : Simulation h) (w : S.World) (a b : Value × ExportsId) : Prop :=
  S.Values w a.1 b.1 ∧ ∃ s s', S.Sites w s s' ∧ s.exports = a.2 ∧ s'.exports = b.2

theorem execute_agrees (hf : S.Follows self self') {source : Text} {globals : FrameId}
    {outer : List FrameId} {program program' : Program}
    (hr : S.Runs w source globals outer program program') :
    S.Agree w S.Executed (execute self source globals outer program)
      (execute self' source globals outer program') := by
  refine hr.bind fun w₁ s s' _ ⟨hs, hseen, hp⟩ => ?_
  refine (Actions.decls_agree hf hp).bind fun w₂ _ _ hl hv => ?_
  exact Worlds.agree_pure ⟨hv hseen, s, s', S.sites_later hl hs, rfl, rfl⟩

theorem runProgram_agrees (hf : S.Follows self self') {source : Text} {program program' : Program}
    (hr : S.Runs w source globalFrame [preludeFrame, builtinsFrame] program program') :
    S.Agree w S.Executed (runProgram h self source program)
      (runProgram h self' source program') :=
  (execute_agrees hf hr).guarded h

/-- The programs that a command may evaluate may be run by both sessions. -/
def Performs (S : Simulation h) (w : S.World) : Command → Prop
  | .source name text => ∀ program, h.read name text = .ok program →
    S.Runs w name globalFrame [preludeFrame, builtinsFrame] program program
  | .file name => ∀ w' text program, S.Later w w' →
    h.disk.readText (Path.ofText name) = .ok text →
    h.read (Path.ofText name).text text = .ok program →
    S.Runs w' (Path.ofText name).text globalFrame [preludeFrame, builtinsFrame] program program

theorem perform_agrees (hf : S.Follows self self') {command : Command}
    (hc : S.Performs w command) :
    S.Agree w S.Values (command.perform h self) (command.perform h self') := by
  cases command with
  | source name text =>
    refine Worlds.agree_lift_same fun program hr => ?_
    refine (runProgram_agrees hf (hc program hr)).bind fun _ _ _ _ hv => ?_
    exact Worlds.agree_pure hv.1
  | file name =>
    unfold Command.perform
    dsimp only
    generalize h.disk.directory.resolve (Path.ofText name) = resolved
    refine Worlds.agree_lift_same fun text ht => ?_
    refine (S.begin_loading resolved).bind fun w₁ _ _ hl _ => ?_
    have hrun : S.Agree w₁ S.Executed (fileProgram h self name text)
        (fileProgram h self' name text) :=
      Worlds.agree_lift_same fun program hr =>
        runProgram_agrees hf (hc w₁ text program hl (ok_of_lift ht) hr)
    have hmend := hrun.mending (f := (·.abortLoading resolved)) (g := (·.abortLoading resolved))
      fun _ _ _ _ hm => S.abort_loading resolved hm
    refine hmend.bind ?_
    rintro w₂ ⟨v, e⟩ ⟨v', e'⟩ - ⟨hv, s, s', hs, he, he'⟩
    dsimp only at hv he he' ⊢
    subst he he'
    have hfinish : S.Agree w₂ (fun _ _ _ => True)
        (change fun m => m.finishLoading resolved (m.exportsOf s.exports))
        (change fun m => m.finishLoading resolved (m.exportsOf s'.exports)) :=
      fun m n hm => S.finish_loading resolved (S.exports hs hm) m n hm
    refine hfinish.bind fun w₃ _ _ hl _ => ?_
    exact Worlds.agree_pure (Actions.values_later hl hv)

theorem prepare_agrees (hf : S.Follows self self')
    (hp : ∀ program, h.read "<prelude>" preludeSource = .ok program →
      S.Runs w "<prelude>" preludeFrame [builtinsFrame] program program) :
    S.Agree w (fun _ _ _ => True) (prepare h self) (prepare h self') := by
  refine Worlds.agree_lift_same fun program hr => ?_
  exact (execute_agrees hf (hp program hr)).bind fun _ _ _ _ _ => Worlds.agree_pure trivial

end Simulation

end ModuleScript
