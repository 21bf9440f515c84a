import ModuleScript.Proofs.Congruence.Failing
import ModuleScript.Session

/-!
# What commands rest on

A command reads the text of a program, evaluates the program, and keeps account of the file meanwhile.
Only what comes out of the program depends on how tasks end, and what goes wrong in it is what the
command ends with.
-/

set_option autoImplicit false

namespace ModuleScript

open Eval Session

/-- What the second computation does rests on what comes out of the first: it depends on nothing else
that is handed on, and its reports come out of it, but for the one that the limit is reached. -/
structure Rests {α β : Type} (x : Step → Eval α) (m : Machine) (y : Step → Eval β) (n : Machine) :
    Prop where
  congr : ∀ {self self'}, x self m = x self' m → y self n = y self' n
  report : ∀ {self r k}, y self n = .error (.report r) k → r.kind ≠ .recursionLimit →
    ∃ k', x self m = .error (.report r) k'

/-- The computation rests on the evaluation of a program, or does the same whatever is evaluated. -/
def RestsOnProgram {β : Type} (y : Step → Eval β) (n : Machine) : Prop :=
  (∀ self self', y self n = y self' n) ∨ ∃ source program m,
    Rests (fun self => execute self source globalFrame [preludeFrame, builtinsFrame] program) m y n

section RestsOnProgram

variable {α β γ : Type} {x : Step → Eval α} {y : Step → Eval β} {m n : Machine}

theorem Rests.guarded (hx : Rests x m y n) (h : Host) :
    Rests x m (fun self => Session.guarded h (y self)) n where
  congr he := by
    unfold Session.guarded
    rw [hx.congr he]
  report he hlimit := by
    unfold Session.guarded at he
    split at he
    · cases he
    · split at he
      · cases he
        exact absurd rfl hlimit
      · exact hx.report he hlimit

theorem Rests.mending (hx : Rests x m y n) (mend : Machine → Machine) :
    Rests x m (fun self => Eval.mending (y self) mend) n where
  congr he := mending_congr (hx.congr he) mend
  report he hlimit := by
    obtain ⟨k', hk', -⟩ := mending_eq_error he
    exact hx.report hk' hlimit

theorem bind_congr_left {x y : Eval β} (he : x n = y n) (f : β → Eval γ) :
    (x >>= f) n = (y >>= f) n := by
  cases hy : y n with
  | ok b k => rw [bind_of_ok hy, bind_of_ok (he.trans hy)]
  | error e k => rw [bind_of_error hy, bind_of_error (he.trans hy)]

theorem Rests.bind {f : β → Eval γ} (hx : Rests x m y n)
    (hf : ∀ b, Fails (fun e => ∀ r, e ≠ .report r) (f b)) :
    Rests x m (fun self => y self >>= f) n where
  congr he := bind_congr_left (hx.congr he) f
  report {self r k} he hlimit := by
    cases hself : y self n with
    | ok b k' =>
      rw [bind_of_ok hself] at he
      exact absurd rfl (hf b k' _ k he r)
    | error e k' =>
      rw [bind_of_error hself] at he
      cases he
      exact hx.report hself hlimit

theorem restsOnProgram_runProgram (h : Host) (source : Text) (program : Program) (m : Machine) :
    RestsOnProgram (fun self => runProgram h self source program) m :=
  .inr ⟨source, program, m, Rests.guarded ⟨id, fun he _ => ⟨_, he⟩⟩ h⟩

theorem RestsOnProgram.mending (hy : RestsOnProgram y n) (mend : Machine → Machine) :
    RestsOnProgram (fun self => Eval.mending (y self) mend) n := by
  rcases hy with hsame | ⟨source, program, m, hy⟩
  · exact .inl fun self self' => mending_congr (hsame self self') mend
  · exact .inr ⟨source, program, m, hy.mending mend⟩

theorem RestsOnProgram.bind {f : β → Eval γ} (hy : RestsOnProgram y n)
    (hf : ∀ b, Fails (fun e => ∀ r, e ≠ .report r) (f b)) :
    RestsOnProgram (fun self => y self >>= f) n := by
  rcases hy with hsame | ⟨source, program, m, hy⟩
  · exact .inl fun self self' => bind_congr_left (hsame self self') f
  · exact .inr ⟨source, program, m, hy.bind hf⟩

/-- What is done before a program is evaluated is done whatever is evaluated. -/
theorem restsOnProgram_after {z : Eval γ} {f : γ → Step → Eval β}
    (hf : ∀ c n', RestsOnProgram (f c) n') (n : Machine) :
    RestsOnProgram (fun self => z >>= fun c => f c self) n := by
  cases hz : z n with
  | error e k => exact .inl fun self self' => (bind_of_error hz).trans (bind_of_error hz).symm
  | ok c n' =>
    have hrest : ∀ self, (z >>= fun c => f c self) n = f c self n' := fun self => bind_of_ok hz
    rcases hf c n' with hsame | ⟨source, program, m, hy⟩
    · exact .inl fun self self' =>
        (hrest self).trans ((hsame self self').trans (hrest self').symm)
    · refine .inr ⟨source, program, m, ⟨fun he => ?_, fun he => ?_⟩⟩
      · exact (hrest _).trans ((hy.congr he).trans (hrest _).symm)
      · exact hy.report ((hrest _).symm.trans he)

theorem fails_finish (p : Path) (e : Machine → Exports) (v : Value) :
    Fails (fun e => ∀ r, e ≠ .report r)
      (change (fun m => m.finishLoading p (e m)) >>= fun _ => pure v) := by
  refine Fails.bind (fun m f k he => ?_) fun _ => nofun
  by_cases hp : p ∈ m.loading
  · rw [change_of_ok (Machine.finishLoading_of_mem hp _)] at he
    cases he
  · rw [change_of_error (if_neg hp)] at he
    cases he
    exact nofun

theorem restsOnProgram_perform (h : Host) (command : Command) (m : Machine) :
    RestsOnProgram (command.perform h) m := by
  cases command with
  | source name text =>
    refine restsOnProgram_after (fun program n => ?_) m
    exact (restsOnProgram_runProgram h name program n).bind fun _ => nofun
  | file name =>
    refine restsOnProgram_after (fun text n => restsOnProgram_after (fun _ n' => ?_) n) m
    refine RestsOnProgram.bind (RestsOnProgram.mending ?_ _) fun r => fails_finish _ _ _
    exact restsOnProgram_after (restsOnProgram_runProgram h _) n'

end RestsOnProgram

end ModuleScript
