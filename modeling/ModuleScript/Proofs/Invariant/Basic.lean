import ModuleScript.Proofs.Lexical
import ModuleScript.Proofs.Names
import ModuleScript.Proofs.Simulation.Agreement

/-!
# Conditions that runs keep

A condition says what machines are like wherever a run is, what later machines keep of earlier ones,
and what all values are like. Two runs of a computation that differ only in how they perform tasks
are the same under a condition when they keep it and end alike; the first of them may also give up,
with a fault of its own. The rules follow the shape of computations.
-/

set_option autoImplicit false

namespace ModuleScript

open Eval

structure Condition where
  Sound : Machine → Prop
  /-- What later machines have in common with earlier ones. -/
  Later : Machine → Machine → Prop
  Good : Value → Prop
  /-- A module may be declared by code that runs in this frame. -/
  Placed : Machine → FrameId → Prop
  later_refl : ∀ m, Later m m
  later_trans : ∀ {a b c}, Later a b → Later b c → Later a c
  placed_later : ∀ {m m' i}, Later m m' → Placed m i → Placed m' i

namespace Condition

variable (I : Condition) (quits : Fault → Prop) {α β : Type}

structure Moves (m m' : Machine) : Prop where
  later : I.Later m m'
  sound : I.Sound m'

/-- Both runs end alike and keep the condition, or the first gives up. -/
inductive Ends (m : Machine) (Q : Machine → α → Prop) :
    EStateM.Result Failure Machine α → EStateM.Result Failure Machine α → Prop where
  | ok {a : α} {m' : Machine} : I.Moves m m' → Q m' a → Ends m Q (.ok a m') (.ok a m')
  | error {e : Failure} {m' : Machine} : I.Moves m m' → Ends m Q (.error e m') (.error e m')
  | quit {f : Fault} {m' : Machine} {r : EStateM.Result Failure Machine α} : quits f →
      Ends m Q (.error (.fault f) m') r

/-- No fault with which a run may give up. -/
abbrev never : Fault → Prop := fun _ => False

/-- From a sound machine, the computations end alike unless the first gives up. -/
def Same (m : Machine) (Q : Machine → α → Prop) (x y : Eval α) : Prop :=
  I.Sound m → I.Ends quits m Q (x m) (y m)

variable {I quits} {m m' : Machine} {Q Q' : Machine → α → Prop} {P : Machine → β → Prop}
  {x y : Eval α}

theorem moves_refl (hm : I.Sound m) : I.Moves m m := ⟨I.later_refl m, hm⟩

theorem Moves.trans {m₁ m₂ : Machine} (h : I.Moves m m₁) (h' : I.Moves m₁ m₂) : I.Moves m m₂ :=
  ⟨I.later_trans h.later h'.later, h'.sound⟩

theorem Ends.of_later {r s : EStateM.Result Failure Machine α} (hl : I.Later m m')
    (h : I.Ends quits m' Q r s) : I.Ends quits m Q r s := by
  cases h with
  | ok hm hq => exact .ok ⟨I.later_trans hl hm.later, hm.sound⟩ hq
  | error hm => exact .error ⟨I.later_trans hl hm.later, hm.sound⟩
  | quit hf => exact .quit hf

/-- A run that does not give up keeps the condition to its end. -/
theorem Ends.eq_or_quit {r s : EStateM.Result Failure Machine α} (h : I.Ends quits m Q r s) :
    (r = s ∧ I.Moves m (endOf s)) ∨ ∃ f k, quits f ∧ r = .error (.fault f) k := by
  cases h with
  | ok hm _ => exact .inl ⟨rfl, hm⟩
  | error hm => exact .inl ⟨rfl, hm⟩
  | quit hf => exact .inr ⟨_, _, hf, rfl⟩

/-! ## Rules -/

theorem Same.imp (h : I.Same quits m Q x y)
    (hQ : ∀ m' a, I.Moves m m' → Q m' a → Q' m' a) : I.Same quits m Q' x y := by
  intro hm
  have he := h hm
  generalize x m = r, y m = s at he
  cases he with
  | ok hm hq => exact .ok hm (hQ _ _ hm hq)
  | error hm => exact .error hm
  | quit hf => exact .quit hf

theorem same_pure {a : α} (h : Q m a) : I.Same quits m Q (pure a) (pure a) :=
  fun hm => .ok (moves_refl hm) h

theorem same_throw (e : Failure) : I.Same quits m Q (throw e) (throw e) :=
  fun hm => .error (moves_refl hm)

theorem same_because (c : Cause) : I.Same quits m Q (because c) (because c) :=
  same_throw _

/-- An action that both runs do themselves. -/
theorem same_act {a : α} {m' : Machine} (hx : I.Sound m → x m = .ok a m')
    (hm' : I.Sound m → I.Moves m m' ∧ Q m' a) : I.Same quits m Q x x := by
  intro hm
  rw [hx hm]
  exact .ok (hm' hm).1 (hm' hm).2

theorem same_reads (hx : Reads x) (hQ : ∀ a, I.Sound m → x m = .ok a m → Q m a) :
    I.Same quits m Q x x := by
  intro hm
  rcases hx m with ⟨a, ha⟩ | ⟨e, he⟩
  · rw [ha]
    exact .ok (moves_refl hm) (hQ a hm ha)
  · rw [he]
    exact .error (moves_refl hm)

theorem same_lift {R : α → Prop} {r : Except Failure α} (hr : ∀ a, r = .ok a → R a) :
    I.Same quits m (fun _ => R) (lift r) (lift r) := by
  cases r with
  | ok a => exact same_pure (hr a rfl)
  | error e => exact same_throw e

theorem same_change {f : Machine → Except Failure Machine}
    (hf : ∀ k, I.Sound m → f m = .ok k → I.Moves m k) :
    I.Same quits m (fun _ _ => True) (change f) (change f) := by
  intro hm
  unfold change
  cases he : f m with
  | ok k => exact .ok (hf k hm he) trivial
  | error e => exact .error (moves_refl hm)

theorem Same.bind {f g : α → Eval β} (h : I.Same quits m Q x y)
    (hfg : ∀ m' a, I.Moves m m' → Q m' a → I.Same quits m' P (f a) (g a)) :
    I.Same quits m P (x >>= f) (y >>= g) := by
  intro hm
  change I.Ends quits m P (EStateM.bind x f m) (EStateM.bind y g m)
  unfold EStateM.bind
  have he := h hm
  generalize x m = r, y m = s at he
  cases he with
  | ok hm' hq => exact (hfg _ _ hm' hq hm'.sound).of_later hm'.later
  | error hm' => exact .error hm'
  | quit hf => exact .quit hf

theorem same_lift_bind {r : Except Failure β} {f g : β → Eval α}
    (h : ∀ b, r = .ok b → I.Same quits m Q (f b) (g b)) :
    I.Same quits m Q (lift r >>= f) (lift r >>= g) := by
  cases r with
  | ok b => exact h b rfl
  | error e => exact same_throw e

theorem same_get {f g : Machine → Eval α} (h : I.Same quits m Q (f m) (g m)) :
    I.Same quits m Q (get >>= f) (get >>= g) := h

theorem Same.located (hx : I.Same quits m Q x y) (h : Host) (l : Location) :
    I.Same quits m Q (Eval.located h l x) (Eval.located h l y) := by
  intro hm
  have he := hx hm
  generalize hr : x m = r, hs : y m = s at he
  cases he with
  | ok hm' hq =>
    rw [located_of_ok h l hr, located_of_ok h l hs]
    exact .ok hm' hq
  | error hm' =>
    rw [located_of_error h l hr, located_of_error h l hs]
    exact .error hm'
  | quit hf =>
    rw [located_of_error h l hr]
    exact .quit hf

/-- What is mended on failure may undo what has been done since an earlier machine. -/
theorem Same.mending {f : Machine → Machine} {m₁ : Machine} (hl : I.Moves m m₁)
    (hx : I.Same quits m₁ Q x y) (hf : ∀ m₂, I.Moves m₁ m₂ → I.Moves m (f m₂)) :
    I.Ends quits m Q (Eval.mending x f m₁) (Eval.mending y f m₁) := by
  unfold Eval.mending
  have he := hx hl.sound
  generalize x m₁ = r, y m₁ = s at he
  cases he with
  | ok hm' hq => exact .ok (hl.trans hm') hq
  | error hm' => exact .error (hf _ hm')
  | quit hq => exact .quit hq

/-! ## Loops -/

section Loops

variable {ι : Type} {R : α → Prop} {xs : List ι}

theorem same_mapM {f g : ι → Eval α}
    (hfg : ∀ m' i, I.Later m m' → i ∈ xs → I.Same quits m' (fun _ => R) (f i) (g i)) :
    I.Same quits m (fun _ as => ∀ a ∈ as, R a) (xs.mapM f) (xs.mapM g) := by
  induction xs generalizing m with
  | nil => exact same_pure fun _ ha => by cases ha
  | cons i xs ih =>
    simp only [List.mapM_cons]
    refine (hfg m i (I.later_refl m) (.head _)).bind fun m₁ a hm₁ ha => ?_
    have hrest := ih fun m' j hl hj => hfg m' j (I.later_trans hm₁.later hl) (.tail _ hj)
    refine hrest.bind fun m₂ as _ has => ?_
    exact same_pure (List.forall_mem_cons.mpr ⟨ha, has⟩)

theorem same_foldlM {f g : α → ι → Eval α} {a : α}
    (hfg : ∀ m' a i, I.Later m m' → R a → i ∈ xs → I.Same quits m' (fun _ => R) (f a i) (g a i))
    (ha : R a) : I.Same quits m (fun _ => R) (xs.foldlM f a) (xs.foldlM g a) := by
  induction xs generalizing m a with
  | nil => exact same_pure ha
  | cons i xs ih =>
    simp only [List.foldlM_cons]
    refine (hfg m a i (I.later_refl m) ha (.head _)).bind fun m₁ b hm₁ hb => ?_
    exact ih (fun m' c j hl hc hj => hfg m' c j (I.later_trans hm₁.later hl) hc (.tail _ hj)) hb

theorem same_filterMapM {f g : ι → Eval (Option α)}
    (hfg : ∀ m' i, I.Later m m' → i ∈ xs →
      I.Same quits m' (fun _ o => ∀ a, o = some a → R a) (f i) (g i)) :
    I.Same quits m (fun _ as => ∀ a ∈ as, R a) (xs.filterMapM f) (xs.filterMapM g) := by
  induction xs generalizing m with
  | nil => exact same_pure fun _ ha => by cases ha
  | cons i xs ih =>
    simp only [List.filterMapM_cons]
    refine (hfg m i (I.later_refl m) (.head _)).bind fun m₁ o hm₁ ho => ?_
    have hrest := ih fun m' j hl hj => hfg m' j (I.later_trans hm₁.later hl) (.tail _ hj)
    cases o with
    | none => exact hrest
    | some a =>
      refine hrest.bind fun m₂ as _ has => ?_
      exact same_pure (List.forall_mem_cons.mpr ⟨ho a rfl, has⟩)

theorem same_filterAuxM {S : ι → Prop} {f g : ι → Eval Bool} {as : List ι}
    (hfg : ∀ m' i, I.Later m m' → i ∈ xs → I.Same quits m' (fun _ _ => True) (f i) (g i))
    (hxs : ∀ i ∈ xs, S i) (has : ∀ i ∈ as, S i) :
    I.Same quits m (fun _ bs => ∀ i ∈ bs, S i) (xs.filterAuxM f as) (xs.filterAuxM g as) := by
  induction xs generalizing m as with
  | nil => exact same_pure has
  | cons i xs ih =>
    refine (hfg m i (I.later_refl m) (.head _)).bind fun m₁ b hm₁ _ => ?_
    have hrest : ∀ {as : List ι}, (∀ j ∈ as, S j) →
        I.Same quits m₁ (fun _ bs => ∀ j ∈ bs, S j) (xs.filterAuxM f as) (xs.filterAuxM g as) :=
      ih (fun m' j hl hj => hfg m' j (I.later_trans hm₁.later hl) (.tail _ hj))
        fun j hj => hxs j (.tail _ hj)
    cases b with
    | false => exact hrest has
    | true => exact hrest (List.forall_mem_cons.mpr ⟨hxs i (.head _), has⟩)

theorem same_filterM {S : ι → Prop} {f g : ι → Eval Bool}
    (hfg : ∀ m' i, I.Later m m' → i ∈ xs → I.Same quits m' (fun _ _ => True) (f i) (g i))
    (hxs : ∀ i ∈ xs, S i) :
    I.Same quits m (fun _ bs => ∀ i ∈ bs, S i) (xs.filterM f) (xs.filterM g) :=
  (same_filterAuxM hfg hxs fun _ hi => by cases hi).bind fun _ _ _ hbs =>
    same_pure fun i hi => hbs i (List.mem_reverse.mp hi)

theorem same_forM {f : ι → Eval PUnit}
    (hf : ∀ m' i, I.Later m m' → i ∈ xs → I.Same quits m' (fun _ _ => True) (f i) (f i)) :
    I.Same quits m (fun _ _ => True) (xs.forM f) (xs.forM f) := by
  induction xs generalizing m with
  | nil => exact same_pure trivial
  | cons i xs ih =>
    refine (hf m i (I.later_refl m) (.head _)).bind fun m₁ _ hm₁ _ => ?_
    exact ih fun m' j hl hj => hf m' j (I.later_trans hm₁.later hl) (.tail _ hj)

end Loops

end Condition

end ModuleScript
