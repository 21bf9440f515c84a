import ModuleScript.Proofs.Congruence.Basic

/-!
# What computations fail with

A property of failures that every failure without a place has, and that no failure of a task lacks, is
one of all failures that come out: evaluation hands on failures, or raises its own without a place.
-/

set_option autoImplicit false

namespace ModuleScript

open Eval

/-- Whatever the computation fails with has the property. -/
def Fails {α : Type} (P : Failure → Prop) (x : Eval α) : Prop := ∀ m e k, x m = .error e k → P e

section Fails

variable {α β : Type} {P : Failure → Prop} {x : Eval α}

theorem Fails.bind {f : α → Eval β} (hx : Fails P x) (hf : ∀ a, Fails P (f a)) :
    Fails P (x >>= f) := by
  intro m e k he
  cases hm : x m with
  | ok a m' =>
    rw [bind_of_ok hm] at he
    exact hf a m' e k he
  | error e' m' =>
    rw [bind_of_error hm] at he
    cases he
    exact hx m e k hm

theorem Fails.mending (hx : Fails P x) (mend : Machine → Machine) :
    Fails P (Eval.mending x mend) := by
  intro m e k he
  obtain ⟨k', hk, -⟩ := mending_eq_error he
  exact hx m e k' hk

theorem Fails.of_bare (hP : ∀ e : Failure, e.unplaced = e → P e) (hx : Bare x) : Fails P x :=
  fun _ e _ he => hP e (hx.unplaced_eq he)

theorem fails_lift {r : Except Failure α} (hr : ∀ e, r = .error e → P e) : Fails P (Eval.lift r) := by
  intro m e k he
  cases r with
  | ok a => cases he
  | error f =>
    cases he
    exact hr e rfl

end Fails

variable {P : Failure → Prop}

/-- Only failures with the property come out of the computations. -/
def failing (P : Failure → Prop) (hP : ∀ e : Failure, e.unplaced = e → P e) : Congruence where
  Rel x _ := Fails P x
  own hx := .of_bare hP hx.bare
  bind := Fails.bind
  mending _ hx := hx.mending _

theorem failing_brackets (hP : ∀ e : Failure, e.unplaced = e → P e) :
    (failing P hP).Brackets where
  begins p := .of_bare hP (bare_change fun m => m.bare_beginLoading p)
  aborts _ hx := hx.mending _
  finishes p e := .of_bare hP (bare_change fun m => m.bare_finishLoading p (e m))

end ModuleScript
