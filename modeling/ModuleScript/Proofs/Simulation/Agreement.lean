import Mathlib.Data.List.Forall2
import ModuleScript.Proofs.Names

/-!
# Agreement of two computations

Two computations agree in a world when, from machines that correspond in that world, they end alike:
both with values that correspond or both with the same failure, and on machines that correspond in a
later world. The rules follow the shape of computations: sequences, failures and loops.
-/

set_option autoImplicit false

namespace ModuleScript

open Eval

/-- Both results are values that correspond, or both are the same failure. -/
inductive ExceptRel {ε α β : Type} (P : α → β → Prop) : Except ε α → Except ε β → Prop where
  | ok {a : α} {b : β} : P a b → ExceptRel P (.ok a) (.ok b)
  | error (e : ε) : ExceptRel P (.error e) (.error e)

namespace ExceptRel

variable {ε ε' α β γ δ : Type} {P : α → β → Prop} {Q : γ → δ → Prop}

theorem refl {P : α → α → Prop} (hP : ∀ a, P a a) (r : Except ε α) : ExceptRel P r r := by
  cases r with
  | ok a => exact .ok (hP a)
  | error e => exact .error e

theorem bind {r : Except ε α} {s : Except ε β} {f : α → Except ε γ} {g : β → Except ε δ}
    (h : ExceptRel P r s) (hfg : ∀ a b, P a b → ExceptRel Q (f a) (g b)) :
    ExceptRel Q (r >>= f) (s >>= g) := by
  cases h with
  | ok h => exact hfg _ _ h
  | error e => exact .error e

end ExceptRel

/-- The machine that a computation ends on, whether it succeeds or fails. -/
def Eval.endOf {α : Type} : EStateM.Result Failure Machine α → Machine
  | .ok _ m => m
  | .error _ m => m

/-- What two runs may have in common at a point, ordered by what comes later. -/
structure Worlds where
  World : Type
  Later : World → World → Prop
  later_refl : ∀ w, Later w w
  later_trans : ∀ {a b c}, Later a b → Later b c → Later a c
  /-- The machines that the runs may be on. -/
  Machines : World → Machine → Machine → Prop

namespace Worlds

/-- Ends that correspond: in a later world, with values that correspond or with one failure. -/
inductive Ends (S : Worlds) {α β : Type} (w : S.World) (P : S.World → α → β → Prop) :
    EStateM.Result Failure Machine α → EStateM.Result Failure Machine β → Prop where
  | ok {w' : S.World} {a : α} {b : β} {m n : Machine} :
      S.Later w w' → S.Machines w' m n → P w' a b → Ends S w P (.ok a m) (.ok b n)
  | error {w' : S.World} {e : Failure} {m n : Machine} :
      S.Later w w' → S.Machines w' m n → Ends S w P (.error e m) (.error e n)

/-- From machines that correspond, both computations end alike. -/
def Agree (S : Worlds) {α β : Type} (w : S.World) (P : S.World → α → β → Prop) (x : Eval α)
    (y : Eval β) : Prop :=
  ∀ m n, S.Machines w m n → S.Ends w P (x m) (y n)

variable {S : Worlds} {α β γ δ : Type} {w w' : S.World} {P P' : S.World → α → β → Prop}
  {Q : S.World → γ → δ → Prop} {x : Eval α} {y : Eval β}

theorem Ends.of_later {r : EStateM.Result Failure Machine α} {s : EStateM.Result Failure Machine β}
    (hw : S.Later w w') (h : S.Ends w' P r s) : S.Ends w P r s := by
  cases h with
  | ok hl hm hp => exact .ok (S.later_trans hw hl) hm hp
  | error hl hm => exact .error (S.later_trans hw hl) hm

theorem Ends.machines {r : EStateM.Result Failure Machine α}
    {s : EStateM.Result Failure Machine β} (h : S.Ends w P r s) :
    ∃ w', S.Later w w' ∧ S.Machines w' (Eval.endOf r) (Eval.endOf s) := by
  cases h with
  | ok hl hm _ => exact ⟨_, hl, hm⟩
  | error hl hm => exact ⟨_, hl, hm⟩

theorem Agree.imp (h : S.Agree w P x y)
    (hP : ∀ w' a b, S.Later w w' → P w' a b → P' w' a b) : S.Agree w P' x y := by
  intro m n hm
  have he := h m n hm
  generalize x m = r, y n = s at he
  cases he with
  | ok hl hm hp => exact .ok hl hm (hP _ _ _ hl hp)
  | error hl hm => exact .error hl hm

theorem ends_ok {a : α} {b : β} {m n : Machine} (hm : S.Machines w m n) (hp : P w a b) :
    S.Ends w P (.ok a m) (.ok b n) :=
  .ok (S.later_refl w) hm hp

theorem ends_error {m n : Machine} (hm : S.Machines w m n) (e : Failure) :
    S.Ends w P (.error e m) (.error e n) :=
  .error (S.later_refl w) hm

theorem agree_pure {a : α} {b : β} (h : P w a b) : S.Agree w P (pure a) (pure b) :=
  fun _ _ hm => ends_ok hm h

theorem agree_throw (e : Failure) : S.Agree w P (throw e) (throw e) :=
  fun _ _ hm => ends_error hm e

theorem agree_because (c : Cause) : S.Agree w P (Eval.because c) (Eval.because c) :=
  agree_throw _

theorem Ends.bind {f : α → Eval γ} {g : β → Eval δ} {m n : Machine}
    (he : S.Ends w P (x m) (y n))
    (hfg : ∀ w' a b, S.Later w w' → P w' a b → S.Agree w' Q (f a) (g b)) :
    S.Ends w Q ((x >>= f) m) ((y >>= g) n) := by
  change S.Ends w Q (EStateM.bind x f m) (EStateM.bind y g n)
  unfold EStateM.bind
  generalize x m = r, y n = s at he
  cases he with
  | ok hl hm hp => exact .of_later hl (hfg _ _ _ hl hp _ _ hm)
  | error hl hm => exact .error hl hm

theorem Agree.bind {f : α → Eval γ} {g : β → Eval δ} (h : S.Agree w P x y)
    (hfg : ∀ w' a b, S.Later w w' → P w' a b → S.Agree w' Q (f a) (g b)) :
    S.Agree w Q (x >>= f) (y >>= g) :=
  fun m n hm => (h m n hm).bind hfg

theorem ends_get {f : Machine → Eval α} {g : Machine → Eval β} {m n : Machine}
    (h : S.Ends w P (f m m) (g n n)) : S.Ends w P ((get >>= f) m) ((get >>= g) n) := h

theorem agree_get {f : Machine → Eval α} {g : Machine → Eval β}
    (h : ∀ m n, S.Machines w m n → S.Ends w P (f m m) (g n n)) :
    S.Agree w P (get >>= f) (get >>= g) := h

theorem agree_modify {f g : Machine → Machine}
    (hfg : ∀ m n, S.Machines w m n → S.Machines w (f m) (g n)) :
    S.Agree w (fun _ _ _ => True) (modify f) (modify g) :=
  fun m n hm => ends_ok (hfg m n hm) trivial

theorem agree_change {f g : Machine → Except Failure Machine}
    (hfg : ∀ m n, S.Machines w m n → ExceptRel (S.Machines w) (f m) (g n)) :
    S.Agree w (fun _ _ _ => True) (Eval.change f) (Eval.change g) := by
  intro m n hm
  have hr := hfg m n hm
  unfold Eval.change
  generalize f m = r, g n = r' at hr
  cases hr with
  | ok hm' => exact ends_ok hm' trivial
  | error e => exact ends_error hm e

theorem agree_lift {Q : α → β → Prop} {r : Except Failure α} {s : Except Failure β}
    (h : ExceptRel Q r s) : S.Agree w (fun _ => Q) (Eval.lift r) (Eval.lift s) := by
  cases h with
  | ok h => exact agree_pure h
  | error e => exact agree_throw e

theorem ends_lift_same {r : Except Failure γ} {f : γ → Eval α} {g : γ → Eval β} {m n : Machine}
    (hm : S.Machines w m n) (h : ∀ a, r = .ok a → S.Ends w P (f a m) (g a n)) :
    S.Ends w P ((Eval.lift r >>= f) m) ((Eval.lift r >>= g) n) := by
  cases r with
  | ok a => exact h a rfl
  | error e => exact agree_throw e m n hm

theorem agree_lift_same {r : Except Failure γ} {f : γ → Eval α} {g : γ → Eval β}
    (h : ∀ a, r = .ok a → S.Agree w P (f a) (g a)) :
    S.Agree w P (Eval.lift r >>= f) (Eval.lift r >>= g) :=
  fun m n hm => ends_lift_same hm fun a ha => h a ha m n hm

theorem Ends.located {r : EStateM.Result Failure Machine α} {s : EStateM.Result Failure Machine β}
    {m n : Machine} (hr : x m = r) (hs : y n = s) (he : S.Ends w P r s) (h : Host) (l : Location) :
    S.Ends w P (Eval.located h l x m) (Eval.located h l y n) := by
  cases he with
  | ok hl hm hp =>
    rw [located_of_ok h l hr, located_of_ok h l hs]
    exact .ok hl hm hp
  | error hl hm =>
    rw [located_of_error h l hr, located_of_error h l hs]
    exact .error hl hm

theorem Agree.located (hx : S.Agree w P x y) (h : Host) (l : Location) :
    S.Agree w P (Eval.located h l x) (Eval.located h l y) :=
  fun m n hm => (hx m n hm).located rfl rfl h l

theorem Agree.mending {f g : Machine → Machine} (hx : S.Agree w P x y)
    (hfg : ∀ w' m n, S.Later w w' → S.Machines w' m n →
      ∃ w'', S.Later w' w'' ∧ S.Machines w'' (f m) (g n)) :
    S.Agree w P (Eval.mending x f) (Eval.mending y g) := by
  intro m n hm
  unfold Eval.mending
  have he := hx m n hm
  generalize x m = r, y n = s at he
  cases he with
  | ok hl hm hp => exact .ok hl hm hp
  | error hl hm =>
    obtain ⟨w'', hl', hm'⟩ := hfg _ _ _ hl hm
    exact .error (S.later_trans hl hl') hm'

/-! ## Loops over lists whose elements correspond -/

variable {ι κ : Type} {R : ι → κ → Prop} {xs : List ι} {ys : List κ}

theorem agree_mapM {f : ι → Eval α} {g : κ → Eval β}
    (hP : ∀ {v v'} a b, S.Later v v' → P v a b → P v' a b)
    (hfg : ∀ w' x y, S.Later w w' → R x y → S.Agree w' P (f x) (g y))
    (h : List.Forall₂ R xs ys) :
    S.Agree w (fun w' => List.Forall₂ (P w')) (xs.mapM f) (ys.mapM g) := by
  induction h generalizing w with
  | nil => exact agree_pure .nil
  | cons hxy _ ih =>
    simp only [List.mapM_cons]
    refine (hfg w _ _ (S.later_refl w) hxy).bind fun w₁ a b hl hab => ?_
    have hrest := ih fun w' x y hl' => hfg w' x y (S.later_trans hl hl')
    refine hrest.bind fun w₂ as bs hl' habs => ?_
    exact agree_pure (.cons (hP a b hl' hab) habs)

theorem agree_foldlM {f : α → ι → Eval α} {g : β → κ → Eval β} {a : α} {b : β}
    (hfg : ∀ w' a b x y, S.Later w w' → P w' a b → R x y → S.Agree w' P (f a x) (g b y))
    (h : List.Forall₂ R xs ys) (hab : P w a b) :
    S.Agree w P (xs.foldlM f a) (ys.foldlM g b) := by
  induction h generalizing w a b with
  | nil => exact agree_pure hab
  | cons hxy _ ih =>
    simp only [List.foldlM_cons]
    refine (hfg w _ _ _ _ (S.later_refl w) hab hxy).bind fun w₁ a b hl hab => ?_
    exact ih (fun w' a b x y hl' => hfg w' a b x y (S.later_trans hl hl')) hab

theorem agree_filterMapM {f : ι → Eval (Option α)} {g : κ → Eval (Option β)}
    (hP : ∀ {v v'} a b, S.Later v v' → P v a b → P v' a b)
    (hfg : ∀ w' x y, S.Later w w' → R x y →
      S.Agree w' (fun w'' => Option.Rel (P w'')) (f x) (g y))
    (h : List.Forall₂ R xs ys) :
    S.Agree w (fun w' => List.Forall₂ (P w')) (xs.filterMapM f) (ys.filterMapM g) := by
  induction h generalizing w with
  | nil => exact agree_pure .nil
  | cons hxy _ ih =>
    simp only [List.filterMapM_cons]
    refine (hfg w _ _ (S.later_refl w) hxy).bind fun w₁ o o' hl ho => ?_
    have hrest := ih fun w' x y hl' => hfg w' x y (S.later_trans hl hl')
    cases ho with
    | none => exact hrest
    | some hab =>
      refine hrest.bind fun w₂ as bs hl' habs => ?_
      exact agree_pure (.cons (hP _ _ hl' hab) habs)

theorem agree_filterAuxM {f : ι → Eval Bool} {g : κ → Eval Bool} {as : List ι} {bs : List κ}
    (hfg : ∀ w' x y, S.Later w w' → R x y → S.Agree w' (fun _ => (· = ·)) (f x) (g y))
    (h : List.Forall₂ R xs ys) (hab : List.Forall₂ R as bs) :
    S.Agree w (fun _ => List.Forall₂ R) (xs.filterAuxM f as) (ys.filterAuxM g bs) := by
  induction h generalizing w as bs with
  | nil => exact agree_pure hab
  | cons hxy _ ih =>
    refine (hfg w _ _ (S.later_refl w) hxy).bind fun w₁ c d hl hcd => ?_
    subst hcd
    have hfg' : ∀ w' x y, S.Later w₁ w' → R x y → S.Agree w' (fun _ => (· = ·)) (f x) (g y) :=
      fun w' x y hl' => hfg w' x y (S.later_trans hl hl')
    cases c with
    | false => exact ih hfg' hab
    | true => exact ih hfg' (.cons hxy hab)

theorem agree_filterM {f : ι → Eval Bool} {g : κ → Eval Bool}
    (hfg : ∀ w' x y, S.Later w w' → R x y → S.Agree w' (fun _ => (· = ·)) (f x) (g y))
    (h : List.Forall₂ R xs ys) :
    S.Agree w (fun _ => List.Forall₂ R) (xs.filterM f) (ys.filterM g) :=
  (agree_filterAuxM hfg h .nil).bind fun _ _ _ _ hab =>
    agree_pure (List.forall₂_reverse_iff.mpr hab)

end Worlds

end ModuleScript
