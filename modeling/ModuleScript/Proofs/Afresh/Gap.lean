import Mathlib.Logic.Equiv.Basic
import ModuleScript.Eval.Files
import ModuleScript.Proofs.Simulation.Values

/-!
# Values across a gap

A run that made something in vain and one that never made it differ in where their later frames,
module records, tables of exports and functions stand: behind a gap in the first run. What both had
before stands at the same place, but for functions that they have made in different orders. `past` leads
from a place of the second run to the place of the first.
-/

set_option autoImplicit false

namespace ModuleScript

/-- Places that are left out: so many, from the first on. -/
structure Gap where
  start : Nat
  width : Nat

namespace Gap

/-- The place beyond the gap, if it is not before it. -/
def past (g : Gap) (i : Nat) : Nat := if i < g.start then i else i + g.width

/-- As many things on the side with the gap as on the other and the gap together. -/
structure Sizes (g : Gap) (a b : Nat) : Prop where
  start_le : g.start ≤ b
  eq : a = b + g.width

variable {g : Gap} {a b i j : Nat}

theorem past_of_lt (h : i < g.start) : g.past i = i := if_pos h

/-- A gap of no width moves nothing. -/
theorem past_level (start i : Nat) : (mk start 0).past i = i := ite_self i

@[simp] theorem past_inj : g.past i = g.past j ↔ i = j := by
  unfold past
  split <;> split <;> omega

theorem Sizes.past_size (h : g.Sizes a b) : g.past b = a := by
  rw [past, if_neg (Nat.not_lt.mpr h.start_le), h.eq]

theorem Sizes.past_lt_iff (h : g.Sizes a b) : g.past i < a ↔ i < b := by
  obtain ⟨hle, rfl⟩ := h
  unfold past
  split <;> omega

theorem Sizes.succ (h : g.Sizes a b) : g.Sizes (a + 1) (b + 1) := by
  obtain ⟨hle, rfl⟩ := h
  exact ⟨Nat.le_succ_of_le hle, Nat.add_right_comm b g.width 1⟩

end Gap

/-- A gap among the frames, and one each among the module records, the tables of exports and the
functions; those before the gap may be numbered in another order. The frames that a session starts with
are before the gap. Of some modules and files only one of the runs may know. -/
structure Gaps where
  frames : Gap
  records : Gap
  exports : Gap
  functions : Gap
  order : Equiv.Perm Nat
  modules : ModulePath → Prop
  files : Path → Prop
  ground : Eval.globalFrame < frames.start
  ordered : ∀ i, functions.start ≤ i → order i = i

def Scope.past (g : Gap) (s : Scope) : Scope := ⟨g.past s.frame, s.outer.map g.past⟩

def Variant.past (g : Gap) (v : Variant) : Variant := { v with scope := v.scope.past g }

def Closure.past (g : Gaps) (f : Closure) : Closure :=
  ⟨g.functions.past (g.order f.identity), f.name, f.variants.map (Variant.past g.frames)⟩

def Site.past (g : Gaps) (s : Site) : Site :=
  ⟨s.source, g.frames.past s.globals, g.exports.past s.exports⟩

def Context.past (g : Gaps) (c : Context) : Context :=
  { c with site := c.site.past g, scope := c.scope.past g.frames }

theorem Gaps.past_ground (g : Gaps) {i : FrameId} (hi : i ≤ Eval.globalFrame) :
    g.frames.past i = i :=
  Gap.past_of_lt (Nat.lt_of_le_of_lt hi g.ground)

theorem Gaps.past_outer (g : Gaps) :
    [Eval.preludeFrame, Eval.builtinsFrame].map g.frames.past =
      [Eval.preludeFrame, Eval.builtinsFrame] := by
  rw [List.map_cons, List.map_cons, g.past_ground (by decide), g.past_ground (by decide)]
  rfl

/-- The top of a source, with the prelude and the natives around it. -/
theorem Gaps.top_past (g : Gaps) (s : Site) :
    (Eval.top s [Eval.preludeFrame, Eval.builtinsFrame]).past g =
      Eval.top (s.past g) [Eval.preludeFrame, Eval.builtinsFrame] := by
  unfold Context.past Scope.past Eval.top
  rw [g.past_outer]
  rfl

theorem Scope.chain_past (g : Gap) (s : Scope) : (s.past g).chain = s.chain.map g.past := rfl

/-- Where all frames of a scope stand at the same place, so does the scope. -/
theorem Scope.past_eq {g : Gap} {s : Scope} (h : ∀ i ∈ s.chain, g.past i = i) : s.past g = s := by
  have hid : ∀ i ∈ s.outer, g.past i = id i := fun i hi => h i (.tail _ hi)
  have houter : s.outer.map g.past = s.outer := (List.map_congr_left hid).trans (List.map_id _)
  rw [Scope.past, houter, h s.frame (.head _)]

namespace Closure

variable {g : Gaps} {f : Closure}

theorem past_eq (hi : g.functions.past (g.order f.identity) = f.identity)
    (hv : ∀ v ∈ f.variants, ∀ i ∈ v.scope.chain, g.frames.past i = i) : f.past g = f := by
  have hid : ∀ v ∈ f.variants, v.past g.frames = id v := fun v h => by
    rw [Variant.past, Scope.past_eq (hv v h), id]
  have hvariants : f.variants.map (Variant.past g.frames) = f.variants :=
    (List.map_congr_left hid).trans (List.map_id _)
  rw [past, hvariants, hi]

theorem variant?_past (g : Gaps) (f : Closure) (n : Nat) :
    (f.past g).variant? n = (f.variant? n).map (Variant.past g.frames) :=
  List.find?_map

theorem arities_past (g : Gaps) (f : Closure) : (f.past g).arities = f.arities := by
  have harities : (f.past g).variants.map Variant.arity = f.variants.map Variant.arity :=
    List.map_map
  rw [arities, harities, arities]

end Closure

/-- Closures and modules correspond that stand at corresponding places and are the same otherwise. -/
def Gaps.like (g : Gaps) : Likeness where
  closure a b := a = b.past g
  module i p j q := i = g.records.past j ∧ p = q
  closure_name := by
    rintro _ b rfl
    rfl
  closure_identity := by
    rintro _ b _ b' rfl rfl
    simp [Closure.past, Bool.beq_eq_decide_eq]
  module_text := by
    rintro _ p _ _ ⟨-, rfl⟩
    rfl
  module_id := by
    rintro _ _ j _ _ _ j' _ ⟨rfl, -⟩ ⟨rfl, -⟩
    simp [Bool.beq_eq_decide_eq]

end ModuleScript
