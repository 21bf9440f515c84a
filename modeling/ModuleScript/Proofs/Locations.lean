import ModuleScript.Eval.Run
import ModuleScript.Proofs.Names
import ModuleScript.Proofs.Simulation.Agreement

/-!
# The places of errors

Nodes place the reports that come out of them and have no place yet; natives do not. Computations can
be compared without regard to the places of their reports. Sequences and loops can be taken apart under
this, and a node that only places a report is the same as what it contains.
-/

set_option autoImplicit false

namespace ModuleScript

open Eval

/-! ## Failures without their places -/

namespace Failure

/-- The failure without the place of its report. -/
def unplaced : Failure → Failure
  | .report r => .report { r with location := none, context := none }
  | e => e

/-- Both are reports of one kind, or the same failure and not a report. -/
inductive SameKind : Failure → Failure → Prop where
  | report {r r' : Report} : r.kind = r'.kind → SameKind (.report r) (.report r')
  | fault (f : Fault) : SameKind (.fault f) (.fault f)
  | tooDeep : SameKind .tooDeep .tooDeep

theorem unplaced_placed (e : Failure) (h : Host) (l : Location) :
    (e.placed h l).unplaced = e.unplaced := by
  cases e with
  | report r =>
    unfold placed Report.locate
    dsimp only
    split <;> rfl
  | fault | tooDeep => rfl

theorem sameKind_of_unplaced {e e' : Failure} (h : e.unplaced = e'.unplaced) : e.SameKind e' := by
  cases e with
  | report r =>
    cases e' with
    | report r' =>
      injection h with hr
      injection hr with hkind
      exact .report hkind
    | fault f => cases h
    | tooDeep => cases h
  | fault f =>
    cases e' with
    | fault g =>
      cases h
      exact .fault f
    | report r => cases h
    | tooDeep => cases h
  | tooDeep =>
    cases e' with
    | tooDeep => exact .tooDeep
    | report r => cases h
    | fault f => cases h

end Failure

namespace Eval

variable {α β : Type} {x y : Eval α}

/-! ## Computations without the places of their reports -/

/-- The computation, but its reports have no place. -/
def unplaced (x : Eval α) : Eval α := fun m =>
  match x m with
  | .error e k => .error e.unplaced k
  | r => r

theorem unplaced_ok {m k : Machine} {a : α} (h : x m = .ok a k) : unplaced x m = .ok a k := by
  unfold unplaced
  rw [h]

theorem unplaced_error {m k : Machine} {e : Failure} (h : x m = .error e k) :
    unplaced x m = .error e.unplaced k := by
  unfold unplaced
  rw [h]

theorem unplaced_congr {m n : Machine} (h : x m = y n) : unplaced x m = unplaced y n := by
  unfold unplaced
  rw [h]

theorem unplaced_bind (x : Eval α) (f : α → Eval β) :
    unplaced (x >>= f) = unplaced x >>= fun a => unplaced (f a) := by
  funext m
  cases hx : x m with
  | ok a k =>
    rw [bind_of_ok (unplaced_ok hx)]
    exact unplaced_congr (bind_of_ok hx)
  | error e k => rw [bind_of_error (unplaced_error hx), unplaced_error (bind_of_error hx)]

theorem unplaced_located (h : Host) (l : Location) (x : Eval α) :
    unplaced (located h l x) = unplaced x := by
  funext m
  cases hx : x m with
  | ok a k => rw [unplaced_ok hx, unplaced_ok (located_of_ok h l hx)]
  | error e k =>
    rw [unplaced_error hx, unplaced_error (located_of_error h l hx), e.unplaced_placed h l]

theorem unplaced_filterMapM {f : α → Eval (Option β)} (xs : List α) :
    unplaced (xs.filterMapM f) = xs.filterMapM fun a => unplaced (f a) := by
  induction xs with
  | nil => rfl
  | cons a xs ih =>
    rw [List.filterMapM_cons, List.filterMapM_cons, unplaced_bind]
    refine bind_congr fun o => ?_
    cases o with
    | none => exact ih
    | some b =>
      rw [unplaced_bind, ih]
      rfl

/-! ## Computations that place their reports -/

/-- Reports that come out of the computation have a place. -/
def Placing (x : Eval α) : Prop :=
  ∀ m r k, x m = .error (.report r) k → r.location ≠ none

theorem located_of_placing {x : Eval α} (hx : Placing x) (h : Host) (l : Location) :
    located h l x = x := by
  funext m
  cases hm : x m with
  | ok a k => exact located_of_ok h l hm
  | error e k =>
    rw [located_of_error h l hm]
    cases e with
    | report r =>
      unfold Failure.placed
      dsimp only
      rw [r.locate_of_location (hx m r k hm)]
    | fault | tooDeep => rfl

theorem placing_pure (a : α) : Placing (pure a) := nofun

theorem Placing.bind {f : α → Eval β} (hx : Placing x)
    (hf : ∀ a, Placing (f a)) : Placing (x >>= f) := by
  intro m r k he
  cases hm : x m with
  | ok a m' =>
    rw [bind_of_ok hm] at he
    exact hf a m' r k he
  | error e m' =>
    rw [bind_of_error hm] at he
    cases he
    exact hx m r k hm

theorem placing_mapM {f : α → Eval β} {xs : List α} (hf : ∀ a, Placing (f a)) :
    Placing (xs.mapM f) := by
  induction xs with
  | nil => exact placing_pure []
  | cons a xs ih =>
    rw [List.mapM_cons]
    exact (hf a).bind fun b => ih.bind fun bs => placing_pure (b :: bs)

theorem placing_foldlM {f : β → α → Eval β} {xs : List α} (hf : ∀ b a, Placing (f b a))
    (b : β) : Placing (xs.foldlM f b) := by
  induction xs generalizing b with
  | nil => exact placing_pure b
  | cons a xs ih =>
    rw [List.foldlM_cons]
    exact (hf b a).bind ih

theorem placing_located (h : Host) (l : Location) (x : Eval α) :
    Placing (located h l x) := by
  intro m r k he
  obtain ⟨e, -, hr⟩ := located_eq_placed he
  cases e with
  | report r₀ =>
    cases hr
    exact r₀.location_locate_ne_none l _
  | fault | tooDeep => cases hr

/-- What a task does, but that a node does not place what comes out of it. -/
def inside (h : Host) (self : Step) (t : Task) : Eval Value :=
  match t with
  | .eval c s => stmt h (self.below h t.work) c s
  | t => step h self t

/-- Every node places the reports that come out of it. -/
theorem placing_eval (h : Host) (depth : Nat) (c : Context) (s : Stmt) :
    Placing (run h depth (.eval c s)) := by
  cases depth with
  | zero => exact nofun
  | succ depth => exact placing_located h s.location _

end Eval

theorem Worlds.Ends.unplaced {S : Worlds} {α β : Type} {w : S.World}
    {P : S.World → α → β → Prop} {x : Eval α} {y : Eval β} {m n : Machine}
    (he : S.Ends w P (x m) (y n)) :
    S.Ends w P (Eval.unplaced x m) (Eval.unplaced y n) := by
  unfold Eval.unplaced
  generalize x m = r, y n = s at he
  cases he with
  | ok hl hm hp => exact .ok hl hm hp
  | error hl hm => exact .error hl hm

end ModuleScript
