import ModuleScript.Proofs.Conduct.Runs

/-!
# Sessions that keep a conduct

If the programs that a session may come to run may be run, then from a machine that fits on every
command keeps the conduct.
-/

set_option autoImplicit false

namespace ModuleScript

open Eval

namespace Session

/-- A program that a session with these commands evaluates itself, with the name of its source, the
frame in which it does so and the frames around that. -/
inductive Given (h : Host) (commands : List Command) :
    Text → FrameId → List FrameId → Program → Prop where
  | prelude {program : Program} : h.read "<prelude>" preludeSource = .ok program →
      Given h commands "<prelude>" preludeFrame [builtinsFrame] program
  | source {name text : Text} {program : Program} : Command.source name text ∈ commands →
      h.read name text = .ok program →
      Given h commands name globalFrame [preludeFrame, builtinsFrame] program
  | file {name text : Text} {program : Program} : Command.file name ∈ commands →
      h.disk.readText (Path.ofText name) = .ok text →
      h.read (Path.ofText name).text text = .ok program →
      Given h commands (Path.ofText name).text globalFrame [preludeFrame, builtinsFrame] program

/-- At first only the natives are bound. -/
theorem blank_holds {good : Value → Prop} (hgood : ∀ k, good (.native k)) (input : Text) :
    (blank input).Holds good := by
  refine ⟨fun {i n v} hv => ?_, fun {i n v} vis hv => ?_, fun hv => ?_, fun hp => ?_⟩
  · match i with
    | 0 =>
      obtain ⟨k, -, hk⟩ := List.mem_map.mp hv
      cases hk
      exact hgood k
    | 1 | 2 => cases hv
    | i + 3 => cases hv
  · cases vis <;> cases hv
  · cases hv
  · cases hp

end Session

namespace Conduct

open Session

variable {C : Conduct} {h : Host} {commands : List Command} {w : C.World}

/-- The commands may be performed. -/
structure Serving (C : Conduct) (h : Host) (commands : List Command) : Prop where
  files : C.Files h
  varies : C.Varies
  given : ∀ {w m source globals outer program}, C.Fits w m →
    Given h commands source globals outer program →
    ∃ w', C.Later w w' ∧ C.Fits w' { m with exports := m.exports.push [] } ∧
      C.Serves w' ⟨source, globals, m.exports.size⟩ ∧
      ∀ s ∈ program, C.Code w' (top ⟨source, globals, m.exports.size⟩ outer) s

variable (hC : C.Serving h commands)

include hC

theorem runs {source : Text} {globals : FrameId} {outer : List FrameId} {program : Program}
    (hg : Given h commands source globals outer program) :
    (C.simulation hC.files).Runs w source globals outer program program := by
  have hopen : C.Keeps w (fun w' s => C.Serves w' s ∧ ∀ st ∈ program, C.Code w' (top s outer) st)
      (newSite source globals) := by
    intro m hm
    obtain ⟨w', hl, hm', hs, hcode⟩ := hC.given hm hg
    exact .inl ⟨_, _, w', rfl, hl, hm', hs, hcode⟩
  refine hopen.agree fun w' s _ hs => ⟨⟨rfl, hs.1⟩, trivial, ?_⟩
  exact List.forall₂_same.mpr fun st hst => ⟨rfl, rfl, hs.2 st hst⟩

theorem perform_agrees {self self' : Step} (hf : C.actions.Follows self self') {command : Command}
    (hmem : command ∈ commands) :
    C.worlds.Agree w (fun w' => (Likeness.only (C.Good w')).Matches) (command.perform h self)
      (command.perform h self') := by
  refine Simulation.perform_agrees (S := C.simulation hC.files) hf ?_
  cases command with
  | source name text => exact fun program hr => runs hC (.source hmem hr)
  | file name => exact fun w' text program _ ht hr => runs hC (.file hmem ht hr)

/-- What all tasks that may be performed pass holds throughout every command. -/
theorem throughout_perform {check : Task → Machine → Prop}
    (hcheck : ∀ w m t, C.Fits w m → C.Allows w t → check t m) {m : Machine} (hm : C.Fits w m)
    {command : Command} (hmem : command ∈ commands) (depth : Nat) :
    Throughout h depth check (command.perform h) m := fun alarm =>
  (ends_eq (perform_agrees hC (watched_follows hC.files.imports hC.varies hcheck alarm depth) hmem)
    (fun _ _ _ => Value.eq_of_only) hm).1

theorem perform_fits {m : Machine} (hm : C.Fits w m) {command : Command}
    (hmem : command ∈ commands) :
    ∃ w', C.Later w w' ∧ C.Fits w' (endOf (command.perform h h.runner m)) := by
  have hf : C.actions.Follows h.runner h.runner := run_follows hC.files.imports hC.varies h.depth
  exact (ends_eq (perform_agrees hC hf hmem) (fun _ _ _ => Value.eq_of_only) hm).2

/-- What a command yields holds good closures only. -/
theorem perform_valid {m m' : Machine} {v : Value} (hm : C.Fits w m) {command : Command}
    (hmem : command ∈ commands) (he : command.perform h h.runner m = .ok v m') :
    ∃ w', C.Later w w' ∧ C.Valid w' v := by
  have hf : C.actions.Follows h.runner h.runner := run_follows hC.files.imports hC.varies h.depth
  have hends := perform_agrees hC hf hmem m m ⟨rfl, hm⟩
  rw [he] at hends
  cases hends with
  | ok hl _ hv => exact ⟨_, hl, Value.carries_of_only hv⟩

theorem prepare_agrees {self self' : Step} (hf : C.actions.Follows self self') :
    C.worlds.Agree w (fun _ a b => a = b) (prepare h self) (prepare h self') := by
  have hload := Simulation.prepare_agrees (S := C.simulation hC.files) (w := w) hf
    fun program hr => runs hC (.prelude hr)
  exact hload.imp fun _ _ _ _ _ => rfl

/-- What all tasks that may be performed pass holds while the prelude is loaded. -/
theorem throughout_prepare {check : Task → Machine → Prop}
    (hcheck : ∀ w m t, C.Fits w m → C.Allows w t → check t m) {m : Machine} (hm : C.Fits w m)
    (depth : Nat) : Throughout h depth check (prepare h) m := fun alarm =>
  (ends_eq (prepare_agrees hC (watched_follows hC.files.imports hC.varies hcheck alarm depth))
    (fun _ _ _ => id) hm).1

theorem start_fits {input : Text} (hm : C.Fits w (blank input)) :
    ∃ w', C.Later w w' ∧ C.Fits w' (start h input).machine := by
  unfold start
  by_cases hp : h.hasPrelude = true
  · have hf := run_follows (h := h) hC.files.imports hC.varies h.ownDepth
    have hload := prepare_agrees hC (w := w) hf
    obtain ⟨w', hl, hm', hfits⟩ := (hload _ _ ⟨rfl, hm⟩).machines
    rw [← loadPrelude_eq] at hfits
    rw [if_pos hp]
    cases he : loadPrelude h (blank input) with
    | ok a m =>
      rw [he] at hfits
      exact ⟨w', hl, hfits⟩
    | error e m =>
      rw [he] at hfits
      exact ⟨w', hl, hfits⟩
  · rw [if_neg hp]
    exact ⟨w, C.later_refl w, hm⟩

/-- Whatever a session was given, its machine fits. -/
theorem after_fits {input : Text} (hm : C.Fits w (blank input)) {history : List Command}
    (hsub : ∀ c ∈ history, c ∈ commands) :
    (after h input history).host = h ∧
      ∃ w', C.Later w w' ∧ C.Fits w' (after h input history).machine := by
  induction history using List.reverseRecOn with
  | nil =>
    have hstart : after h input [] = start h input := rfl
    rw [hstart]
    exact ⟨start_host h input, start_fits hC hm⟩
  | append_singleton history c ih =>
    obtain ⟨hhost, w₁, hl₁, hm₁⟩ := ih fun d hd => hsub d (List.mem_append_left _ hd)
    rw [after_append, perform_session, hhost]
    obtain ⟨w₂, hl₂, hm₂⟩ := perform_fits hC hm₁ (hsub c (by simp))
    exact ⟨rfl, w₂, C.later_trans hl₁ hl₂, hm₂⟩

end Conduct

end ModuleScript
