import ModuleScript.Proofs.Congruence.Habits
import ModuleScript.Proofs.Congruence.Modest
import ModuleScript.Proofs.Pending.Members

/-!
# Runs under survey

A computation and another run of it that may raise an alarm, side by side. They are the same if every
module that gets complete in the course of them passes a test. Either way they add frames and modules
only, and if they end well they leave nothing pending that was not so before. The rules follow the
shape of computations.
-/

set_option autoImplicit false

namespace ModuleScript

open Eval

/-- What a survey of a run is about: modules that may have pending members although none of their
code is running, and the test that complete modules have to pass. -/
structure Survey where
  left : RecordId → Prop
  passes : RecordId → Prop

namespace Survey

variable (S : Survey) (around : List RecordId) {α β ι : Type}

/-- All modules made since that are complete pass the test. -/
def Spares (m m' : Machine) : Prop :=
  ∀ i, m.records.size ≤ i → i < m'.records.size → m'.Complete i → S.passes i

/-- Members are pending only in modules whose declarations are under way, or that are left so. -/
structure Ready (m : Machine) : Prop where
  bound : m.Bound
  under : ∀ i ∈ around, i < m.records.size
  pending : ∀ i, ¬ m.Initialized i → i ∈ around ∨ S.left i

structure Ends (m : Machine) (Q : Machine → α → Prop)
    (r r' : EStateM.Result Failure Machine α) : Prop where
  same : S.Spares m (endOf r') → r = r'
  onward : m.Onward around (endOf r')
  settles : ∀ a k, r' = .ok a k → m.Settles k ∧ Q k a

/-- From a machine that is ready, both computations end in this way. -/
def Tidy (m : Machine) (Q : Machine → α → Prop) (x y : Eval α) : Prop :=
  S.Ready around m → S.Ends around m Q (x m) (y m)

/-- The computations are tidy on every machine. -/
def Always (x y : Eval α) : Prop := ∀ m, S.Tidy around m (fun _ _ => True) x y

variable {S around} {m k : Machine} {Q Q' : Machine → α → Prop} {P : Machine → β → Prop}
  {x y : Eval α}

theorem Spares.earlier {m' : Machine} (h : S.Spares m m') (hk : m.Onward around k)
    (hm' : k.Onward around m') (hout : ∀ r ∈ around, r < m.records.size) : S.Spares m k :=
  fun i hi hlt hc => h i hi (Nat.lt_of_lt_of_le hlt hm'.records)
    (hm'.complete hk.bound hlt (fun r hr => Nat.lt_of_lt_of_le (hout r hr) hi) hc)

theorem Spares.later {m' : Machine} (h : S.Spares m m') (hk : m.records.size ≤ k.records.size) :
    S.Spares k m' :=
  fun i hi => h i (Nat.le_trans hk hi)

theorem initialized_of_settles {i : RecordId} (h : m.Settles k) (hi : m.Initialized i) :
    k.Initialized i :=
  fun vis n hn => hi vis n (h i vis n hn)

theorem Ready.next (hm : S.Ready around m) (hk : m.Onward around k) (hs : m.Settles k) :
    S.Ready around k where
  bound := hk.bound
  under i hi := Nat.lt_of_lt_of_le (hm.under i hi) hk.records
  pending i hi := hm.pending i fun h => hi (initialized_of_settles hs h)

/-! ## Rules -/

theorem Tidy.imp (h : S.Tidy around m Q x y)
    (hQ : ∀ k a, m.Onward around k → Q k a → Q' k a) : S.Tidy around m Q' x y := by
  intro hm
  obtain ⟨hsame, honward, hok⟩ := h hm
  refine ⟨hsame, honward, fun a k he => ?_⟩
  obtain ⟨hs, hq⟩ := hok a k he
  rw [he] at honward
  exact ⟨hs, hQ k a honward hq⟩

/-- What evaluation does itself is the same in both. -/
theorem tidy_own (h : m.Bound → m.Calm around (endOf (x m)) ∧ ∀ a k, x m = .ok a k → Q k a) :
    S.Tidy around m Q x x := by
  intro hm
  obtain ⟨hcalm, hq⟩ := h hm.bound
  refine ⟨fun _ => rfl, hcalm.onward, fun a k he => ⟨?_, hq a k he⟩⟩
  have hs := hcalm.settles
  rwa [he] at hs

theorem tidy_reads (hx : Reads x) (hQ : ∀ a, x m = .ok a m → Q m a) : S.Tidy around m Q x x := by
  refine tidy_own fun hm => ?_
  rcases hx m with ⟨a, ha⟩ | ⟨e, he⟩
  · rw [ha]
    refine ⟨Machine.calm_refl around hm, fun b k hb => ?_⟩
    cases hb
    exact hQ a ha
  · rw [he]
    exact ⟨Machine.calm_refl around hm, fun _ _ hb => by cases hb⟩

theorem tidy_pure {a : α} (h : Q m a) : S.Tidy around m Q (pure a) (pure a) :=
  tidy_reads (reads_pure a) fun b hb => by
    cases hb
    exact h

theorem Tidy.bind {f g : α → Eval β} (hx : S.Tidy around m Q x y)
    (hf : ∀ k a, m.Onward around k → Q k a → S.Tidy around k P (f a) (g a)) :
    S.Tidy around m P (x >>= f) (y >>= g) := by
  intro hm
  obtain ⟨hsame, honward, hok⟩ := hx hm
  cases hy : y m with
  | error e k =>
    rw [hy] at hsame honward
    rw [bind_of_error hy]
    exact ⟨fun hs => bind_of_error (hsame hs), honward, fun _ _ he => by cases he⟩
  | ok a k =>
    obtain ⟨hs, hq⟩ := hok a k hy
    rw [hy] at hsame honward
    change m.Onward around k at honward
    obtain ⟨hsame', honward', hok'⟩ := hf k a honward hq (hm.next honward hs)
    rw [bind_of_ok hy]
    refine ⟨fun hspares => ?_, honward.trans honward', fun b n he => ?_⟩
    · rw [bind_of_ok (hsame (hspares.earlier honward honward' hm.under))]
      exact hsame' (hspares.later honward.records)
    · obtain ⟨hs', hp⟩ := hok' b n he
      exact ⟨hs.trans hs', hp⟩

theorem tidy_get {f g : Machine → Eval α} (h : S.Tidy around m Q (f m) (g m)) :
    S.Tidy around m Q (get >>= f) (get >>= g) := h

theorem Tidy.located (hx : S.Tidy around m Q x y) (h : Host) (l : Location) :
    S.Tidy around m Q (Eval.located h l x) (Eval.located h l y) := by
  intro hm
  obtain ⟨hsame, honward, hok⟩ := hx hm
  rw [show endOf (y m) = endOf (Eval.located h l y m) from (endOf_located h l y m).symm]
    at hsame honward
  exact ⟨fun hs => located_congr h l (hsame hs), honward, fun a k he => hok a k (located_eq_ok he)⟩

/-- What is mended on failure adds nothing, and members at most to modules around. -/
theorem Ends.mending {f : Machine → Machine} {m₁ : Machine}
    (hx : S.Ends around m Q (x m₁) (y m₁)) (hout : ∀ r ∈ around, r < m.records.size)
    (hf : ∀ k, m.Onward around k → k.Onward around (f k)) :
    S.Ends around m Q (Eval.mending x f m₁) (Eval.mending y f m₁) := by
  obtain ⟨hsame, honward, hok⟩ := hx
  cases hy : y m₁ with
  | ok a k =>
    rw [hy] at hsame honward
    rw [mending_of_ok f hy]
    exact ⟨fun hs => mending_of_ok f (hsame hs), honward, fun b n he => hok b n (hy.trans he)⟩
  | error e k =>
    rw [hy] at hsame honward
    change m.Onward around k at honward
    rw [mending_of_error f hy]
    have hend := hf k honward
    refine ⟨fun hs => ?_, honward.trans hend, fun _ _ he => by cases he⟩
    exact mending_of_error f (hsame (hs.earlier honward hend hout))

theorem tidy_lift_bind {r : Except Failure β} {f g : β → Eval α}
    (h : ∀ b, r = .ok b → S.Tidy around m Q (f b) (g b)) :
    S.Tidy around m Q (lift r >>= f) (lift r >>= g) := by
  cases r with
  | ok b => exact h b rfl
  | error e => exact tidy_reads (reads_throw e) fun _ hb => by cases hb

/-- A sequence of which every item has its own say about the machine, and what was said before stays
true. -/
theorem tidy_foldlM {f g : α → ι → Eval α} {R : ι → Machine → Prop}
    (hR : ∀ i k k', k.Settles k' → k.Onward around k' → R i k → R i k') {xs : List ι}
    (hfg : ∀ k a i, m.Onward around k → i ∈ xs →
      S.Tidy around k (fun k' _ => R i k') (f a i) (g a i)) (a : α) :
    S.Tidy around m (fun k _ => ∀ i ∈ xs, R i k) (xs.foldlM f a) (xs.foldlM g a) := by
  induction xs generalizing m a with
  | nil => exact tidy_pure fun _ hi => by cases hi
  | cons i xs ih =>
    intro hm
    rw [List.foldlM_cons, List.foldlM_cons]
    have hfirst := hfg m a i (Machine.onward_refl around hm.bound) (.head _)
    refine hfirst.bind (P := fun k _ => ∀ j ∈ i :: xs, R j k) (fun k b hk hi hready => ?_) hm
    have hrest := ih (fun n c j hn hj => hfg n c j (hk.trans hn) (.tail _ hj)) b hready
    refine ⟨hrest.same, hrest.onward, fun c n he => ?_⟩
    obtain ⟨hs, hall⟩ := hrest.settles c n he
    have hn := hrest.onward
    rw [he] at hn
    exact ⟨hs, List.forall_mem_cons.mpr ⟨hR i k n hs hn hi, hall⟩⟩

theorem Always.bind {f g : α → Eval β} (hx : S.Always around x y)
    (hf : ∀ a, S.Always around (f a) (g a)) : S.Always around (x >>= f) (y >>= g) :=
  fun m => (hx m).bind fun k a _ _ => hf a k

theorem always_own (h : ∀ m : Machine, m.Bound → m.Calm around (endOf (x m))) : S.Always around x x :=
  fun m => tidy_own fun hm => ⟨h m hm, fun _ _ _ => trivial⟩

theorem always_reads (hx : Reads x) : S.Always around x x :=
  fun _ => tidy_reads hx fun _ _ => trivial

end Survey

end ModuleScript
