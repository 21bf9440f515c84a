import Mathlib.Data.List.Induction
import ModuleScript.Proofs.Names
import ModuleScript.Proofs.Simulation.Agreement
import ModuleScript.Session

/-!
# Sessions between commands

A session is given one command after another and keeps its machine from each to the next, whatever
came of it.
-/

set_option autoImplicit false

namespace ModuleScript.Session

open Eval

/-! ## The machine of a new session -/

/-- At first there are bindings only in the frame of the natives. -/
theorem frame_blank (input : Text) (i : FrameId) :
    (blank input).frame i = builtins ∨ ((blank input).frame i).bindings = [] := by
  match i with
  | 0 => exact .inl rfl
  | 1 => exact .inr rfl
  | 2 => exact .inr rfl
  | i + 3 => exact .inr (by simp [Machine.frame, blank]; rfl)

theorem record_blank (input : Text) (i : FrameId) : ((blank input).frame i).record = none := by
  match i with
  | 0 => rfl
  | 1 => rfl
  | 2 => rfl
  | i + 3 => simp [Machine.frame, blank]; rfl

/-! ## From each command to the next -/

/-- Loads the prelude with the tasks it leads to given to a step. -/
def prepare (h : Host) (self : Step) : Eval Unit := do
  let program ← lift (h.read "<prelude>" preludeSource)
  let _ ← execute self "<prelude>" preludeFrame [builtinsFrame] program

theorem loadPrelude_eq (h : Host) : loadPrelude h = prepare h (run h h.ownDepth) := rfl

/-- Reads and runs the program of a file that a command names. -/
def fileProgram (h : Host) (self : Step) (name text : Text) : Eval (Value × ExportsId) := do
  let program ← lift (h.read (Path.ofText name).text text)
  runProgram h self (Path.ofText name).text program

/-- The session after it has been given the commands, whatever came of each. -/
def after (h : Host) (input : Text) (commands : List Command) : Session :=
  commands.foldl (fun s c => (s.perform fun h => c.perform h h.runner).2) (start h input)

theorem perform_session {α : Type} (s : Session) (x : Host → Eval α) :
    (s.perform x).2 = ⟨s.host, endOf (x s.host s.machine)⟩ := by
  unfold perform
  cases x s.host s.machine <;> rfl

theorem after_append (h : Host) (input : Text) (commands : List Command) (c : Command) :
    after h input (commands ++ [c]) =
      ((after h input commands).perform fun h => c.perform h h.runner).2 := by
  unfold after
  rw [List.foldl_append]
  rfl

theorem start_host (h : Host) (input : Text) : (start h input).host = h := by
  unfold start
  split
  · dsimp only
    split <;> rfl
  · rfl

theorem after_host (h : Host) (input : Text) (history : List Command) :
    (after h input history).host = h := by
  induction history using List.reverseRecOn with
  | nil => exact start_host h input
  | append_singleton history c ih => rw [after_append, perform_session, ih]

theorem after_machine (h : Host) (input : Text) (history : List Command) (c : Command) :
    (after h input (history ++ [c])).machine =
      endOf (c.perform h h.runner (after h input history).machine) := by
  rw [after_append, perform_session, after_host]

theorem endOf_bind_pure {α β : Type} (x : Eval α) (g : α → β) (m : Machine) :
    endOf ((x >>= fun a => pure (g a)) m) = endOf (x m) := by
  cases hx : x m with
  | ok a k => rw [bind_of_ok hx]; rfl
  | error e k => rw [bind_of_error hx]; rfl

theorem endOf_loadPrelude_of_error {h : Host} {e : Failure}
    (hr : h.read "<prelude>" preludeSource = .error e) (m : Machine) :
    endOf (loadPrelude h m) = m := by
  unfold loadPrelude
  rw [hr]
  rfl

/-- To load the prelude is to evaluate its statements with a table of exports of their own. -/
theorem endOf_loadPrelude {h : Host} {program : Program}
    (hr : h.read "<prelude>" preludeSource = .ok program) (m : Machine) :
    endOf (loadPrelude h m) =
      endOf ((run h h.ownDepth).stmts (top ⟨"<prelude>", preludeFrame, m.exports.size⟩ [builtinsFrame])
        program { m with exports := m.exports.push [] }) := by
  unfold loadPrelude
  rw [hr]
  exact (endOf_bind_pure _ _ _).trans (endOf_bind_pure _ _ _)

theorem start_machine (h : Host) (input : Text) :
    (start h input).machine =
      if h.hasPrelude then endOf (loadPrelude h (blank input)) else blank input := by
  unfold start
  dsimp only
  split
  · cases loadPrelude h (blank input) <;> rfl
  · rfl

/-! ## How commands end -/

/-- Whether evaluation has succeeded with a value that passes the test. -/
def endsWith (test : Value → Bool) : EStateM.Result Failure Machine Value → Bool
  | .ok v _ => test v
  | .error _ _ => false

/-- Whether evaluation has failed with a report that passes the test. -/
def failsWith (test : Report → Bool) : EStateM.Result Failure Machine Value → Bool
  | .error (.report r) _ => test r
  | _ => false

theorem endsWith_eq_true {test : Value → Bool} {r : EStateM.Result Failure Machine Value}
    (h : endsWith test r = true) : ∃ v m, r = .ok v m ∧ test v = true := by
  cases r with
  | ok v m => exact ⟨v, m, rfl, h⟩
  | error e m => cases h

theorem failsWith_eq_true {test : Report → Bool} {r : EStateM.Result Failure Machine Value}
    (h : failsWith test r = true) : ∃ e m, r = .error (.report e) m ∧ test e = true := by
  cases r with
  | ok v m => cases h
  | error e m =>
    cases e with
    | report e => exact ⟨e, m, rfl, h⟩
    | fault f => cases h
    | tooDeep => cases h

/-! ## Hosts with given files -/

/-- A host that runs in the directory `/w`, where there are files with these names and ASCII texts. -/
def hostWith (files : List (List Text × String)) : Host where
  disk :=
    { directory := ⟨"/", ["w"]⟩
      files := files.map fun (p, s) => ("w" :: p, s.toList.map fun c => UInt8.ofNat c.toNat) }
  recursionLimit := 1000
  hasPrelude := true

end ModuleScript.Session
