import ModuleScript.Proofs.Names
import ModuleScript.Session

/-!
# What failures there are

A source that is read fails with a report, or holds a numeral that is too long. A file fails to be read
as files do, or because there is no text for its octets or no octets for its path. And no command of a
session ends for want of levels: it ends with a report of the limit then.
-/

set_option autoImplicit false

namespace ModuleScript

open Eval Session

/-! ## Faults of reading -/

namespace Scan

/-- A numeral with too many digits is the only fault that a source can hold. -/
def Stops : Fault → Prop
  | .numeralTooLong n => Decimal.maxDigits < n
  | _ => False

theorem numeral_fault {t : Text} {f : Fault} {n : Nat} (h : numeral t = (.fault f, n)) : Stops f := by
  unfold numeral at h
  dsimp only at h
  split at h
  · cases h
  · split at h
    · cases h
    · rename_i g hg
      cases h
      unfold Decimal.read at hg
      split at hg
      · cases hg
      · cases hg
        exact Nat.lt_of_not_le ‹_›

theorem literal_ne_fault (quote : CodePoint) (rest : Text) (f : Fault) (n : Nat) :
    literal quote rest ≠ (.fault f, n) := by
  intro h
  unfold literal at h
  repeat' split at h
  all_goals cases h

theorem piece_fault {c : CodePoint} {rest : Text} {f : Fault} {n : Nat}
    (h : piece c rest = (.fault f, n)) : Stops f := by
  unfold piece at h
  split at h
  · cases h
  split at h
  · cases h
  split at h
  · exact numeral_fault h
  split at h
  · exact absurd h (literal_ne_fault c rest f n)
  repeat' split at h
  all_goals cases h

theorem tokensFrom_stop {skip : Nat} {l : Location} {t : Text} {e : Failure}
    (h : (tokensFrom skip l t).2 = some e) : (∃ r, e = .report r) ∨ ∃ f, e = .fault f ∧ Stops f := by
  induction t generalizing skip l with
  | nil => cases h
  | cons c rest ih =>
    unfold tokensFrom at h
    split at h
    · exact ih h
    · split at h
      · exact ih h
      · exact ih h
      · cases h
        exact .inl ⟨_, rfl⟩
      · rename_i hp
        cases h
        exact .inr ⟨_, rfl, piece_fault hp⟩

end Scan

theorem readProgram_error {file source : Text} {e : Failure} (h : readProgram file source = .error e) :
    (∃ r, e = .report r) ∨ ∃ f, e = .fault f ∧ Scan.Stops f := by
  unfold readProgram at h
  dsimp only at h
  split at h
  · cases h
    exact .inl ⟨_, rfl⟩
  · rename_i hstop
    cases h
    exact Scan.tokensFrom_stop hstop
  · rename_i r _ _
    cases hf : r.finish with
    | ok p =>
      rw [hf] at h
      cases h
    | error report =>
      rw [hf] at h
      cases h
      exact .inl ⟨_, rfl⟩

theorem Host.read_error {h : Host} {file source : Text} {e : Failure}
    (hr : h.read file source = .error e) :
    (∃ r, e = .report r) ∨ ∃ f, e = .fault f ∧ Scan.Stops f := by
  obtain ⟨e', hp, rfl⟩ := failure_of_read hr
  rcases readProgram_error hp with ⟨r, rfl⟩ | ⟨f, rfl, hf⟩
  · exact .inl ⟨_, rfl⟩
  · exact .inr ⟨f, rfl, hf⟩

namespace Disk

/-- Faults that are not of the file system but stop the reading of a text. -/
def Baffles : Fault → Prop
  | .undecodable | .nullInPath | .surrogates _ _ => True
  | _ => False

theorem checkName_error {p : Path} {f : Fault} (h : checkName p = .error f) : Baffles f := by
  unfold checkName at h
  dsimp only at h
  split at h
  · cases h
    trivial
  · split at h
    · cases h
      trivial
    · cases h

theorem read_error {d : Disk} {p : Path} {f : Fault} (h : d.read p = .error f) :
    (∃ trouble t, f = .file trouble t) ∨ Baffles f := by
  unfold read at h
  cases hn : checkName p with
  | error g =>
    rw [hn] at h
    cases h
    exact .inr (checkName_error hn)
  | ok u =>
    rw [hn] at h
    change (if maxPath < octets p.text then _ else _) = _ at h
    repeat' split at h
    all_goals cases h
    all_goals exact .inl ⟨_, _, rfl⟩

theorem readText_error {d : Disk} {p : Path} {f : Fault} (h : d.readText p = .error f) :
    (∃ trouble t, f = .file trouble t) ∨ Baffles f := by
  unfold readText at h
  cases hr : d.read p with
  | error g =>
    rw [hr] at h
    cases h
    exact read_error hr
  | ok bytes =>
    rw [hr] at h
    dsimp only [bind, Except.bind] at h
    split at h
    · cases h
    · cases h
      exact .inr trivial

end Disk

/-! ## Evaluation that is never too deep -/

/-- The computation does not end for want of levels. -/
def Eval.Shallow {α : Type} (x : Eval α) : Prop := ∀ m k, x m ≠ .error .tooDeep k

namespace Eval.Shallow

variable {α β : Type} {x : Eval α}

theorem bind {f : α → Eval β} (hx : Shallow x) (hf : ∀ a, Shallow (f a)) : Shallow (x >>= f) := by
  intro m k he
  cases hr : x m with
  | ok a m' =>
    rw [bind_of_ok hr] at he
    exact hf a m' k he
  | error e m' =>
    rw [bind_of_error hr] at he
    cases he
    exact hx m k hr

theorem pure (a : α) : Shallow (Pure.pure a : Eval α) := fun _ _ he => by cases he

theorem lift {r : Except Failure α} (hr : r ≠ .error .tooDeep) : Shallow (Eval.lift r) := by
  intro m k he
  cases r with
  | ok a => cases he
  | error e =>
    cases he
    exact hr rfl

theorem change (f : Machine → Except Failure Machine) (hf : ∀ m, f m ≠ .error .tooDeep) :
    Shallow (Eval.change f) := by
  intro m k he
  unfold Eval.change at he
  cases hr : f m with
  | ok m' =>
    rw [hr] at he
    cases he
  | error e =>
    rw [hr] at he
    cases he
    exact hf m hr

theorem mending (hx : Shallow x) (mend : Machine → Machine) : Shallow (Eval.mending x mend) := by
  intro m k he
  obtain ⟨k', hk, -⟩ := mending_eq_error he
  exact hx m k' hk

/-- What is guarded ends with a report instead. -/
theorem guarded (h : Host) (x : Eval α) : Shallow (Session.guarded h x) := by
  intro m k he
  unfold Session.guarded at he
  split at he
  · cases he
  · split at he
    · cases he
    · rename_i hnot
      exact hnot k he

theorem read (h : Host) (file source : Text) : Shallow (Eval.lift (h.read file source)) := by
  refine lift fun he => ?_
  rcases Host.read_error he with ⟨r, hr⟩ | ⟨f, hf, -⟩
  · cases hr
  · cases hf

theorem perform (h : Host) (command : Command) : Shallow (command.perform h h.runner) := by
  have hfault : ∀ {β : Type} (r : Except Fault β), Failure.lift r ≠ .error .tooDeep := fun r => by
    cases r <;> exact fun he => by cases he
  cases command with
  | source name text => exact (read h name text).bind fun _ => (guarded h _).bind fun _ => pure _
  | file name =>
    have hbegin : ∀ p m, Machine.beginLoading m p ≠ .error .tooDeep := fun p m he => by
      unfold Machine.beginLoading at he
      split at he <;> cases he
    have hfinish : ∀ p e m, Machine.finishLoading m p e ≠ .error .tooDeep := fun p e m he => by
      unfold Machine.finishLoading at he
      split at he <;> cases he
    refine (lift (hfault _)).bind fun text => (change _ (hbegin _)).bind fun _ => ?_
    refine Shallow.bind (mending ?_ _) fun _ => (change _ fun m => hfinish _ _ m).bind fun _ => pure _
    exact (read h _ text).bind fun _ => guarded h _

end Eval.Shallow

end ModuleScript
