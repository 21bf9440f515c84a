import ModuleScript.Proofs.Invariant.Actions
import ModuleScript.Proofs.Sequences
import ModuleScript.Proofs.Simulation.Operators

/-!
# Invariants and operations on values

Operators and natives make good values of good ones. Of the operators only `$` need not: it drops
the first element of a list and keeps the rest a list.
-/

set_option autoImplicit false

namespace ModuleScript

/-- The operator that leaves all elements but the first. -/
def UnaryOp.isTail : UnaryOp → Bool
  | .tail => true
  | _ => false

namespace Invariant

open Value

variable {I : Invariant} {a b c v : Value} {args vs : List Value}

theorem good_plain (h : v.isPlain = true) : I.Good v := by
  refine I.atom fun vs hv => ?_
  rw [hv] at h
  cases h

theorem good_items (h : I.Good v) (hi : v.items? = some vs) : ∀ u ∈ vs, I.Good u := by
  intro u hu
  cases v with
  | text t =>
    cases hi
    obtain ⟨d, -, rfl⟩ := List.mem_map.mp hu
    exact good_plain rfl
  | list us =>
    cases hi
    exact I.item h hu
  | _ => cases hi

/-! ## Results -/

/-- A result that is good if it is a value. -/
def Yields (I : Invariant) (r : Except Failure Value) : Prop := ∀ v, r = .ok v → I.Good v

theorem yields_ok (h : I.Good v) : I.Yields (.ok v) := by
  rintro _ ⟨⟩
  exact h

theorem yields_error (e : Failure) : I.Yields (.error e) := fun _ h => by cases h

theorem yields_bind {α : Type} {r : Except Failure α} {f : α → Except Failure Value}
    (h : ∀ a, r = .ok a → I.Yields (f a)) : I.Yields (r >>= f) := by
  cases r with
  | ok a => exact h a rfl
  | error e => exact yields_error e

theorem yields_lift {α : Type} {f : α → Value} (hf : ∀ a, (f a).isPlain = true)
    (r : Except Fault α) : I.Yields (Failure.lift (r.map f)) := by
  cases r with
  | ok a => exact yields_ok (good_plain (hf a))
  | error e => exact yields_error _

theorem yields_undefined (op : BinaryOp) (a b : Value) : I.Yields (undefined op a b) :=
  yields_error _

/-! ## Operators -/

theorem yields_concat (a b : Value) : I.Yields (concat a b) := by
  unfold concat
  cases a.display with
  | error e => exact yields_error _
  | ok s =>
    cases b.display with
    | error e => exact yields_error _
    | ok t => exact yields_ok (good_plain rfl)

theorem yields_shiftChar (d : CodePoint) (i : Int) : I.Yields (shiftChar d i) := by
  unfold shiftChar
  dsimp only
  split
  · exact yields_ok (good_plain rfl)
  · exact yields_bind fun _ _ => yields_error _

theorem yields_add (ha : I.Good a) (hb : I.Good b) : I.Yields (a.add b) := by
  fun_cases Value.add a b with
  | case1 x y => exact yields_lift (fun _ => rfl) _
  | case2 s b => exact yields_concat _ _
  | case3 a t => exact yields_concat _ _
  | case4 d i => exact yields_shiftChar d i
  | case5 as bs =>
    refine yields_ok (I.ofItems fun u hu => ?_)
    rcases List.mem_append.mp hu with hu | hu
    · exact I.item ha hu
    · exact I.item hb hu
  | case6 => exact yields_undefined _ _ _

theorem yields_subtract (a b : Value) : I.Yields (a.subtract b) := by
  fun_cases Value.subtract a b with
  | case1 x y => exact yields_lift (fun _ => rfl) _
  | case2 d i => exact yields_shiftChar d _
  | case3 => exact yields_undefined _ _ _

theorem yields_multiply (a b : Value) : I.Yields (a.multiply b) := by
  fun_cases Value.multiply a b with
  | case1 x y => exact yields_lift (fun _ => rfl) _
  | case2 => exact yields_undefined _ _ _

theorem yields_divide (a b : Value) : I.Yields (a.divide b) := by
  fun_cases Value.divide a b with
  | case1 => exact yields_error _
  | case2 => exact yields_lift (fun _ => rfl) _
  | case3 => exact yields_undefined _ _ _

theorem yields_modulo (a b : Value) : I.Yields (a.modulo b) := by
  fun_cases Value.modulo a b with
  | case1 => exact yields_error _
  | case2 => exact yields_ok (good_plain rfl)
  | case3 => exact yields_undefined _ _ _

theorem yields_lessThan (a b : Value) : I.Yields (a.lessThan b) := by
  unfold lessThan
  split
  · exact yields_ok (good_plain rfl)
  · exact yields_undefined _ _ _

theorem yields_greaterThan (a b : Value) : I.Yields (a.greaterThan b) := by
  unfold greaterThan
  split
  · exact yields_ok (good_plain rfl)
  · exact yields_undefined _ _ _

theorem yields_binary (op : BinaryOp) (ha : I.Good a) (hb : I.Good b) :
    I.Yields (Value.binary op a b) := by
  cases op with
  | add => exact yields_add ha hb
  | subtract => exact yields_subtract a b
  | multiply => exact yields_multiply a b
  | divide => exact yields_divide a b
  | modulo => exact yields_modulo a b
  | less => exact yields_lessThan a b
  | greater => exact yields_greaterThan a b
  | equal => exact yields_ok (good_plain rfl)
  | notEqual => exact yields_ok (good_plain rfl)
  | and => exact yields_undefined _ _ _
  | or => exact yields_undefined _ _ _

theorem yields_head (h : I.Good v) : I.Yields v.head := by
  unfold head
  split
  · rename_i hi
    exact yields_ok (good_items h hi _ (.head _))
  · exact yields_error _
  · exact yields_error _

theorem yields_negate (v : Value) : I.Yields v.negate := by
  fun_cases Value.negate v with
  | case1 => exact yields_ok (good_plain rfl)
  | case2 => exact yields_ok (good_plain rfl)
  | case3 => exact yields_error _

theorem yields_unary {op : UnaryOp} (hop : op.isTail = false) (h : I.Good v) :
    I.Yields (Value.unary op v) := by
  cases op with
  | negate => exact yields_negate v
  | head => exact yields_head h
  | tail => cases hop

/-! ## Natives -/

theorem yields_numberRange (a b : Value) : I.Yields (numberRange a b) := by
  refine yields_bind fun low _ => yields_bind fun high _ => yields_ok ?_
  have hints : ∀ is : List Int, Value.ofItems (is.map int) = .list (is.map int) := by
    intro is
    refine ofItems_eq_list fun hne => ?_
    obtain ⟨i, hi⟩ := List.exists_mem_of_ne_nil is (by simpa using hne)
    exact ⟨int i, List.mem_map_of_mem hi, fun c hc => by cases hc⟩
  have hrange : (List.range (high - low).toNat).map (fun (k : Nat) => int (low + k)) =
      ((List.range (high - low).toNat).map fun (k : Nat) => low + k).map int := by simp
  rw [hrange, ← hints]
  refine I.ofItems fun u hu => ?_
  obtain ⟨i, -, rfl⟩ := List.mem_map.mp hu
  exact good_plain rfl

theorem yields_changeCase (n : Native) (f : Text → Text) (v : Value) :
    I.Yields (v.changeCase n f) := by
  refine yields_bind fun t _ => ?_
  split
  · exact yields_ok (good_plain rfl)
  · exact yields_ok (good_plain rfl)

theorem yields_substring (v first stop : Value) : I.Yields (v.substring first stop) := by
  refine yields_bind fun t _ => yields_bind fun i _ => yields_bind fun j _ => ?_
  split
  · exact yields_ok (good_plain rfl)
  · exact yields_bind fun _ _ => yields_bind fun _ _ => yields_error _

theorem yields_parseInteger (v : Value) : I.Yields v.parseInteger := by
  refine yields_bind fun t _ => ?_
  dsimp only
  split
  · exact yields_ok (good_plain rfl)
  · exact yields_bind fun n _ => yields_ok (good_plain rfl)

theorem yields_parseTruth (v : Value) : I.Yields v.parseTruth := by
  refine yields_bind fun t _ => yields_ok (good_plain ?_)
  split
  · rfl
  · split <;> rfl

theorem good_expectItems (n : Native) (h : I.Good v) (hi : v.expectItems n = .ok vs) :
    ∀ u ∈ vs, I.Good u := by
  unfold expectItems at hi
  split at hi
  · rename_i ho
    cases hi
    exact good_items h ho
  · cases hi

theorem yields_reversed (h : I.Good v) : I.Yields v.reversed := by
  cases v with
  | text t => exact yields_ok (good_plain rfl)
  | list us => exact yields_ok (I.reverse h)
  | _ => exact yields_error _

theorem yields_last (h : I.Good v) : I.Yields v.last := by
  refine yields_bind fun items hi => yields_ok ?_
  cases hlast : items.getLast? with
  | none => exact good_plain rfl
  | some u => exact good_expectItems .seq h hi u (List.mem_of_getLast? hlast)

theorem yields_applyNative? (n : Native) (h : ∀ v ∈ args, I.Good v) {r : Except Failure Value}
    (hr : applyNative? n args = some r) : I.Yields r := by
  fun_cases applyNative? n args with
  | case1 v => cases hr; exact yields_ok (good_plain rfl)
  | case2 v => cases hr; exact yields_changeCase _ _ v
  | case3 v => cases hr; exact yields_changeCase _ _ v
  | case4 v first stop => cases hr; exact yields_substring v first stop
  | case5 v => cases hr; exact yields_parseInteger v
  | case6 v => cases hr; exact yields_parseTruth v
  | case7 first stop => cases hr; exact yields_numberRange first stop
  | case8 v => cases hr; exact yields_reversed (h v (.head _))
  | case9 v => cases hr; exact yields_last (h v (.head _))
  | case10 => simp_all [applyNative?]

end Invariant

end ModuleScript
