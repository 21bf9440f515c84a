import ModuleScript.Text.Basic

/-!
# Bindings

Names with what they are bound to, in the order in which the names were first bound. Binding a name
again keeps its place.
-/

set_option autoImplicit false

namespace ModuleScript

/-- An association list whose names are distinct when it is built by `set`. -/
abbrev Bindings (α : Type) := List (Ident × α)

namespace Bindings

variable {α : Type}

def get? (b : Bindings α) (name : Ident) : Option α :=
  (b.find? (·.1 == name)).map (·.2)

def has (b : Bindings α) (name : Ident) : Bool := b.any (·.1 == name)

def set : Bindings α → Ident → α → Bindings α
  | [], name, a => [(name, a)]
  | (n, old) :: rest, name, a =>
    if n = name then (name, a) :: rest else (n, old) :: set rest name a

def erase (b : Bindings α) (name : Ident) : Bindings α := b.filter (·.1 != name)

def names (b : Bindings α) : List Ident := b.map (·.1)

theorem get?_cons (n name : Ident) (a : α) (b : Bindings α) :
    get? ((n, a) :: b) name = if n = name then some a else get? b name := by
  by_cases h : n = name <;> simp [get?, h]

theorem get?_set (b : Bindings α) (name other : Ident) (a : α) :
    (b.set name a).get? other = if name = other then some a else b.get? other := by
  induction b with
  | nil => exact get?_cons name other a []
  | cons p rest ih =>
    obtain ⟨n, old⟩ := p
    by_cases h : n = name
    · subst h
      by_cases h : n = other <;> simp [set, get?_cons, h]
    · by_cases h' : n = other
      · subst h'
        simp [set, get?_cons, h, Ne.symm h]
      · simp [set, get?_cons, h, h', ih]

theorem get?_erase (b : Bindings α) (name other : Ident) :
    (b.erase name).get? other = if name = other then none else b.get? other := by
  induction b with
  | nil => simp [erase, get?]
  | cons p rest ih =>
    obtain ⟨n, a⟩ := p
    rw [get?_cons]
    by_cases h : n = name
    · subst h
      rw [show erase ((n, a) :: rest) n = erase rest n by simp [erase], ih]
      by_cases h : n = other <;> simp [h]
    · rw [show erase ((n, a) :: rest) name = (n, a) :: erase rest name by simp [erase, h],
        get?_cons, ih]
      by_cases h' : n = other
      · subst h'
        simp [Ne.symm h]
      · simp [h']

theorem has_eq_isSome (b : Bindings α) (name : Ident) : b.has name = (b.get? name).isSome := by
  induction b with
  | nil => rfl
  | cons p rest ih =>
    obtain ⟨n, a⟩ := p
    rw [get?_cons, show has ((n, a) :: rest) name = (n == name || has rest name) from rfl, ih]
    by_cases h : n = name <;> simp [h]

theorem has_set (b : Bindings α) (name other : Ident) (a : α) :
    (b.set name a).has other = (decide (name = other) || b.has other) := by
  rw [has_eq_isSome, get?_set, has_eq_isSome]
  by_cases h : name = other <;> simp [h]

theorem mem_names_iff (b : Bindings α) (name : Ident) :
    name ∈ b.names ↔ b.has name = true := by
  simp [names, has]

end Bindings

end ModuleScript
