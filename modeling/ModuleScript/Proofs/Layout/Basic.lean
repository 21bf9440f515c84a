import ModuleScript.Proofs.Lexical
import ModuleScript.Proofs.Simulation.Slots

/-!
# Where the frames of one run stand in another

Of two runs the second may make frames that the first does without, so the frames that both make need
not have the same numbers. A layout lists what the frames of the second run are. It grows as the runs go
on. Scopes correspond along it, and the second may also pass through frames of its own in which there
is nothing.
-/

set_option autoImplicit false

namespace ModuleScript

open Eval

/-- A frame of the second run: the counterpart of a frame of the first, or one that stands aside, with
what it holds. -/
inductive Berth where
  | shared (i : FrameId)
  | aside (f : Frame)

/-- What the frames of the second run are, in the order in which they were made. -/
abbrev Layout := List Berth

/-- No name has a meaning in the frame. -/
structure Frame.Idle (f : Frame) : Prop where
  record : f.record = none
  bindings : f.bindings = []

namespace Layout

variable {w w' : Layout} {i i' j j' : FrameId} {is js : List FrameId} {b b' : Berth}

def Places (w : Layout) (i j : FrameId) : Prop := w[j]? = some (.shared i)

/-- The frames of the first list in their places, and idle frames that stand aside. -/
inductive Chain (w : Layout) : List FrameId → List FrameId → Prop where
  | nil : Chain w [] []
  | shared {i j : FrameId} {is js : List FrameId} : w.Places i j → Chain w is js →
      Chain w (i :: is) (j :: js)
  | idle {j : FrameId} {f : Frame} {is js : List FrameId} : w[j]? = some (.aside f) → f.Idle →
      Chain w is js → Chain w is (j :: js)

/-! ## Growth -/

theorem getElem?_later (hl : w <+: w') (h : w[j]? = some b) : w'[j]? = some b := by
  obtain ⟨rest, rfl⟩ := hl
  have hlt : j < w.length := (List.getElem?_eq_some_iff.mp h).1
  rw [List.getElem?_append_left hlt, h]

theorem Places.later (hl : w <+: w') (h : w.Places i j) : w'.Places i j := getElem?_later hl h

theorem Chain.later (hl : w <+: w') (h : w.Chain is js) : w'.Chain is js := by
  induction h with
  | nil => exact .nil
  | shared hp _ ih => exact .shared (hp.later hl) ih
  | idle ha hf _ ih => exact .idle (getElem?_later hl ha) hf ih

theorem Places.lt (h : w.Places i j) : j < w.length := (List.getElem?_eq_some_iff.mp h).1

/-- A frame belongs to one frame of the first run at most. -/
theorem Places.eq (h : w.Places i j) (h' : w.Places i' j) : i = i' :=
  Berth.shared.inj (Option.some.inj (h.symm.trans h'))

theorem getElem?_push : (w ++ [b])[j]? = some b' ↔ w[j]? = some b' ∨ j = w.length ∧ b = b' := by
  rcases Nat.lt_trichotomy j w.length with hlt | rfl | hgt
  · rw [List.getElem?_append_left hlt]
    simp [Nat.ne_of_lt hlt]
  · simp
  · rw [List.getElem?_eq_none (by simp; omega), List.getElem?_eq_none (by omega)]
    simp [Nat.ne_of_gt hgt]

theorem places_push : (w ++ [b]).Places i j ↔ w.Places i j ∨ j = w.length ∧ b = .shared i :=
  getElem?_push

/-- The layout of two runs that have made the same frames. -/
def start (n : Nat) : Layout := (List.range n).map .shared

theorem length_start (n : Nat) : (start n).length = n := by simp [start]

theorem places_start {n : Nat} : (start n).Places i j ↔ i = j ∧ i < n := by
  unfold Places start
  rw [List.getElem?_map]
  constructor
  · intro h
    obtain ⟨k, hk, he⟩ := Option.map_eq_some_iff.mp h
    cases he
    obtain ⟨hlt, rfl⟩ := List.getElem?_eq_some_iff.mp hk
    simpa using hlt
  · rintro ⟨rfl, hi⟩
    rw [List.getElem?_range hi]
    rfl

theorem start_prefix {n k : Nat} (h : n ≤ k) : start n <+: start k := by
  unfold start
  rw [← Nat.add_sub_of_le h, List.range_add, List.map_append]
  exact List.prefix_append _ _

theorem not_aside_start {n : Nat} {f : Frame} : (start n)[j]? ≠ some (.aside f) := by
  unfold start
  rw [List.getElem?_map]
  intro h
  obtain ⟨k, -, hk⟩ := Option.map_eq_some_iff.mp h
  cases hk

theorem chain_start {n : Nat} (h : ∀ i ∈ is, i < n) : (start n).Chain is is := by
  induction is with
  | nil => exact .nil
  | cons i is ih =>
    obtain ⟨hi, his⟩ := List.forall_mem_cons.mp h
    exact .shared (places_start.mpr ⟨rfl, hi⟩) (ih his)

/-! ## Values and contexts -/

structure Variants (w : Layout) (v v' : Variant) : Prop where
  params : v.params = v'.params
  body : v.body = v'.body
  module : v.module = v'.module
  chain : w.Chain v.scope.chain v'.scope.chain

structure Closures (w : Layout) (f f' : Closure) : Prop where
  identity : f.identity = f'.identity
  name : f.name = f'.name
  variants : List.Forall₂ w.Variants f.variants f'.variants

/-- Functions correspond whose scopes do and that are the same otherwise. Modules are the same. -/
def like (w : Layout) : Likeness where
  closure := w.Closures
  module i p j q := i = j ∧ p = q
  closure_name h := h.name
  closure_identity h h' := by rw [h.identity, h'.identity]
  module_text := @Likeness.module_text .identity
  module_id := @Likeness.module_id .identity

structure Sites (w : Layout) (s s' : Site) : Prop where
  source : s.source = s'.source
  globals : w.Places s.globals s'.globals
  exports : s.exports = s'.exports

structure Contexts (w : Layout) (c c' : Context) : Prop where
  site : w.Sites c.site c'.site
  chain : w.Chain c.scope.chain c'.scope.chain
  module : c.module = c'.module

section Later

variable (hl : w <+: w')

include hl

theorem Variants.later {v v' : Variant} (h : w.Variants v v') : w'.Variants v v' :=
  ⟨h.params, h.body, h.module, h.chain.later hl⟩

theorem Closures.later {f f' : Closure} (h : w.Closures f f') : w'.Closures f f' :=
  ⟨h.identity, h.name, h.variants.imp fun _ _ => .later hl⟩

theorem matches_later {v v' : Value} (h : w.like.Matches v v') : w'.like.Matches v v' := by
  have hclosure : ∀ {f f'}, w.like.closure f f' → w'.like.closure f f' := Closures.later hl
  have hmodule : ∀ {i p j q}, w.like.module i p j q → w'.like.module i p j q := id
  exact h.mono hclosure hmodule

theorem exported_later {e e' : Exports} (h : w.like.Exported e e') : w'.like.Exported e e' :=
  Bindings.Related.imp h fun _ _ _ => matches_later hl

theorem Sites.later {s s' : Site} (h : w.Sites s s') : w'.Sites s s' :=
  ⟨h.source, h.globals.later hl, h.exports⟩

theorem Contexts.later {c c' : Context} (h : w.Contexts c c') : w'.Contexts c c' :=
  ⟨h.site.later hl, h.chain.later hl, h.module⟩

end Later

/-- Functions that correspond have variants for the same numbers of arguments. -/
theorem Closures.variant? {f f' : Closure} (h : w.Closures f f') (n : Nat) :
    Option.Rel w.Variants (f.variant? n) (f'.variant? n) := by
  unfold Closure.variant?
  have hall := h.variants
  generalize f.variants = vs, f'.variants = vs' at hall
  induction hall with
  | nil => exact .none
  | @cons v v' _ _ hv _ ih =>
    have harity : v.arity = v'.arity := by unfold Variant.arity; rw [hv.params]
    rw [List.find?_cons, List.find?_cons, harity]
    cases v'.arity == n with
    | true => exact .some hv
    | false => exact ih

theorem Closures.arities {f f' : Closure} (h : w.Closures f f') : f.arities = f'.arities := by
  unfold Closure.arities
  have hall := h.variants
  generalize f.variants = vs, f'.variants = vs' at hall
  congr 1
  induction hall with
  | nil => rfl
  | @cons v v' _ _ hv _ ih =>
    rw [List.map_cons, List.map_cons, ih]
    unfold Variant.arity
    rw [hv.params]

end Layout

end ModuleScript
