import ModuleScript.Proofs.Simulation.Agreement
import ModuleScript.Value.Natives
import ModuleScript.Value.Shape

/-!
# Values that correspond

Two values correspond when they have the same shape, the same plain parts, and closures and modules
that correspond at the same places. Display, comparison, operators and natives cannot tell values
that correspond apart.
-/

set_option autoImplicit false

namespace ModuleScript

/-- Neither a list nor a closure nor a module. -/
def Value.isPlain : Value → Bool
  | .list _ | .closure _ | .module _ _ => false
  | _ => true

theorem Value.isPlain_line (atEnd : Bool) (line : Text) :
    (if atEnd = true then Value.unit else .text line).isPlain = true := by
  cases atEnd <;> rfl

/-- Which closures and which modules of two runs correspond. The name of a closure, the text of a
module path and what is identical with what are the same in both runs. -/
structure Likeness where
  closure : Closure → Closure → Prop
  module : RecordId → ModulePath → RecordId → ModulePath → Prop
  closure_name : ∀ {a b}, closure a b → a.name = b.name
  closure_identity : ∀ {a b a' b'}, closure a b → closure a' b' →
    (a.identity == a'.identity) = (b.identity == b'.identity)
  module_text : ∀ {i p j q}, module i p j q → p.text = q.text
  module_id : ∀ {i p j q i' p' j' q'}, module i p j q → module i' p' j' q' →
    (i == i') = (j == j')

namespace Likeness

inductive Matches (k : Likeness) : Value → Value → Prop where
  | plain {v : Value} : v.isPlain = true → Matches k v v
  | list {as bs : List Value} : List.Forall₂ (Matches k) as bs → Matches k (.list as) (.list bs)
  | closure {a b : Closure} : k.closure a b → Matches k (.closure a) (.closure b)
  | module {i j : RecordId} {p q : ModulePath} : k.module i p j q →
      Matches k (.module i p) (.module j q)

variable {k : Likeness} {a a' b b' v v' : Value} {as as' bs bs' : List Value}

theorem Matches.mono {k' : Likeness} (hc : ∀ {a b}, k.closure a b → k'.closure a b)
    (hm : ∀ {i p j q}, k.module i p j q → k'.module i p j q) :
    ∀ {v v' : Value}, k.Matches v v' → k'.Matches v v'
  | _, _, .plain h => .plain h
  | _, _, .closure h => .closure (hc h)
  | _, _, .module h => .module (hm h)
  | .list _, .list _, .list h => .list (items h)
where
  items : ∀ {as bs : List Value}, List.Forall₂ k.Matches as bs → List.Forall₂ k'.Matches as bs
    | _, _, .nil => .nil
    | _, _, .cons h t => .cons (h.mono hc hm) (items t)

/-- Values that correspond in two ways do so in a third, for which the one tells enough of closures and
the other of modules. -/
theorem Matches.of_both {k' k'' : Likeness} (hc : ∀ {a b}, k.closure a b → k''.closure a b)
    (hm : ∀ {i p j q}, k'.module i p j q → k''.module i p j q) :
    ∀ {v v' : Value}, k.Matches v v' → k'.Matches v v' → k''.Matches v v'
  | _, _, .plain h, _ => .plain h
  | _, _, .closure h, _ => .closure (hc h)
  | _, _, .module _, .module h => .module (hm h)
  | .list _, .list _, .list h, .list h' => .list (items h h')
where
  items : ∀ {as bs : List Value}, List.Forall₂ k.Matches as bs → List.Forall₂ k'.Matches as bs →
      List.Forall₂ k''.Matches as bs
    | _, _, .nil, _ => .nil
    | _, _, .cons h t, .cons h' t' => .cons (h.of_both hc hm h') (items t t')

/-- Where closures and modules correspond to themselves, so do values. -/
theorem matches_refl (hc : ∀ c, k.closure c c) (hm : ∀ i p, k.module i p i p) :
    ∀ v : Value, k.Matches v v
  | .number _ | .text _ | .char _ | .bool _ | .unit | .native _ => .plain rfl
  | .closure c => .closure (hc c)
  | .module i p => .module (hm i p)
  | .list vs => .list (items vs)
where
  items : ∀ vs : List Value, List.Forall₂ k.Matches vs vs
    | [] => .nil
    | v :: vs => .cons (matches_refl hc hm v) (items vs)

/-- Where only equal closures and modules correspond, so do only equal values. -/
theorem Matches.eq (hc : ∀ {a b}, k.closure a b → a = b)
    (hm : ∀ {i p j q}, k.module i p j q → i = j ∧ p = q) :
    ∀ {v v' : Value}, k.Matches v v' → v = v'
  | _, _, .plain _ => rfl
  | _, _, .closure h => by rw [hc h]
  | _, _, .module h => by rw [(hm h).1, (hm h).2]
  | .list _, .list _, .list h => by rw [items h]
where
  items : ∀ {as bs : List Value}, List.Forall₂ k.Matches as bs → as = bs
    | _, _, .nil => rfl
    | _, _, .cons h t => by rw [h.eq hc hm, items t]

/-- Closures and modules correspond to themselves only. -/
def identity : Likeness where
  closure a b := a = b
  module i p j q := i = j ∧ p = q
  closure_name := by
    rintro _ _ rfl
    rfl
  closure_identity := by
    rintro _ _ _ _ rfl rfl
    rfl
  module_text := by
    rintro _ _ _ _ ⟨rfl, rfl⟩
    rfl
  module_id := by
    rintro _ _ _ _ _ _ _ _ ⟨rfl, rfl⟩ ⟨rfl, rfl⟩
    rfl

theorem identity_refl (v : Value) : identity.Matches v v :=
  matches_refl (k := identity) (fun _ => rfl) (fun _ _ => ⟨rfl, rfl⟩) v

theorem identity_eq (h : identity.Matches v v') : v = v' :=
  h.eq id id

theorem Matches.isPlain_eq (h : k.Matches v v') : v.isPlain = v'.isPlain := by
  cases h <;> rfl

theorem Matches.eq_of_plain (h : k.Matches v v') (hv : v.isPlain = true) : v = v' := by
  cases h with
  | plain _ => rfl
  | list _ => cases hv
  | closure _ => cases hv
  | module _ => cases hv

theorem Matches.typeName_eq (h : k.Matches v v') : v.typeName = v'.typeName := by
  cases h <;> rfl

mutual

theorem Matches.nested_eq : ∀ {v v' : Value}, k.Matches v v' → v.nested = v'.nested
  | _, _, .plain _ => rfl
  | _, _, .closure h => by rw [Value.nested, Value.nested, k.closure_name h]
  | _, _, .module h => by rw [Value.nested, Value.nested, k.module_text h]
  | .list _, .list _, .list h => by rw [Value.nested, Value.nested, nestedItems_eq h]

theorem nestedItems_eq : ∀ {as bs : List Value}, List.Forall₂ k.Matches as bs →
    Value.nestedItems as = Value.nestedItems bs
  | _, _, .nil => rfl
  | _, _, .cons h t => by rw [Value.nestedItems, Value.nestedItems, h.nested_eq, nestedItems_eq t]

end

mutual

theorem Matches.shape_eq : ∀ {v v' : Value}, k.Matches v v' → v.shape = v'.shape
  | _, _, .plain _ => rfl
  | _, _, .closure _ => rfl
  | _, _, .module _ => rfl
  | .list _, .list _, .list h => by rw [Value.shape, Value.shape, shapes_eq h]

theorem shapes_eq : ∀ {as bs : List Value}, List.Forall₂ k.Matches as bs →
    Value.shapes as = Value.shapes bs
  | _, _, .nil => rfl
  | _, _, .cons h t => by rw [Value.shapes, Value.shapes, h.shape_eq, shapes_eq t]

end

theorem Matches.display_eq (h : k.Matches v v') : v.display = v'.display := by
  cases h with
  | plain _ => rfl
  | list h => exact (Matches.list h).nested_eq
  | closure h => exact (Matches.closure h).nested_eq
  | module h => exact (Matches.module h).nested_eq

theorem mapM_display_eq (h : List.Forall₂ k.Matches as bs) :
    as.mapM Value.display = bs.mapM Value.display := by
  induction h with
  | nil => rfl
  | cons h _ ih => rw [List.mapM_cons, List.mapM_cons, h.display_eq, ih]

/-! ## Comparison -/

theorem same_plain_left {a b : Value} (ha : a.isPlain = true) (hb : b.isPlain = false) :
    a.same b = false := by
  cases a <;> cases b <;> simp_all [Value.isPlain, Value.same]

theorem same_plain_right {a b : Value} (ha : a.isPlain = false) (hb : b.isPlain = true) :
    a.same b = false := by
  cases a <;> cases b <;> simp_all [Value.isPlain, Value.same]

mutual

theorem same_eq : ∀ {a a' b b' : Value}, k.Matches a a' → k.Matches b b' →
    a.same b = a'.same b'
  | _, _, _, _, .plain _, .plain _ => rfl
  | _, _, _, _, .plain h, .list _ => by rw [same_plain_left h rfl, same_plain_left h rfl]
  | _, _, _, _, .plain h, .closure _ => by rw [same_plain_left h rfl, same_plain_left h rfl]
  | _, _, _, _, .plain h, .module _ => by rw [same_plain_left h rfl, same_plain_left h rfl]
  | .list _, .list _, _, _, .list _, .plain h => by
    rw [same_plain_right rfl h, same_plain_right rfl h]
  | _, _, _, _, .closure _, .plain h => by rw [same_plain_right rfl h, same_plain_right rfl h]
  | _, _, _, _, .module _, .plain h => by rw [same_plain_right rfl h, same_plain_right rfl h]
  | .list _, .list _, .list _, .list _, .list ha, .list hb => sameItems_eq ha hb
  | _, _, _, _, .closure ha, .closure hb => k.closure_identity ha hb
  | _, _, _, _, .module ha, .module hb => k.module_id ha hb
  | .list _, .list _, _, _, .list _, .closure _ => rfl
  | .list _, .list _, _, _, .list _, .module _ => rfl
  | _, _, _, _, .closure _, .list _ => rfl
  | _, _, _, _, .closure _, .module _ => rfl
  | _, _, _, _, .module _, .list _ => rfl
  | _, _, _, _, .module _, .closure _ => rfl

theorem sameItems_eq : ∀ {as as' bs bs' : List Value}, List.Forall₂ k.Matches as as' →
    List.Forall₂ k.Matches bs bs' → Value.sameItems as bs = Value.sameItems as' bs'
  | _, _, _, _, .nil, .nil => rfl
  | _, _, _, _, .nil, .cons _ _ => rfl
  | _, _, _, _, .cons _ _, .nil => rfl
  | _, _, _, _, .cons ha has, .cons hb hbs => by
    rw [Value.sameItems, Value.sameItems, same_eq ha hb, sameItems_eq has hbs]

end

/-! ## Lists -/

theorem chars?_eq (h : List.Forall₂ k.Matches as bs) : Value.chars? as = Value.chars? bs := by
  induction h with
  | nil => rfl
  | @cons a b _ _ hab _ ih =>
    cases hab with
    | plain _ => cases a <;> simp [Value.chars?, ih]
    | list _ => rfl
    | closure _ => rfl
    | module _ => rfl

theorem matches_ofItems (h : List.Forall₂ k.Matches as bs) :
    k.Matches (Value.ofItems as) (Value.ofItems bs) := by
  unfold Value.ofItems
  rw [← chars?_eq h]
  split
  · exact .plain rfl
  · exact .list h

theorem Matches.items? (h : k.Matches v v') :
    Option.Rel (List.Forall₂ k.Matches) v.items? v'.items? := by
  cases h with
  | plain h =>
    cases v with
    | text t =>
      refine .some ?_
      rw [List.forall₂_map_left_iff, List.forall₂_map_right_iff, List.forall₂_same]
      exact fun _ _ => .plain rfl
    | list _ => cases h
    | _ => exact .none
  | list h => exact .some h
  | closure _ => exact .none
  | module _ => exact .none

end Likeness

end ModuleScript
