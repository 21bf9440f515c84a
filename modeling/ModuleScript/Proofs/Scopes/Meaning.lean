import ModuleScript.Proofs.Names
import ModuleScript.Proofs.Scopes.Kept

/-!
# What names mean

The value of a name is in the slot that is found for it, if the code may see it. Where frames and
records keep their names, a name is found at the same place with a related slot; a frame that only
binds another name is passed by.
-/

set_option autoImplicit false

namespace ModuleScript

open Eval

/-- The value that a name has for code in a context, or why it has none. -/
def Eval.meaning (c : Context) (n : Ident) (m : Machine) : Except Failure Value :=
  match resolve c n m with
  | .ok (_, v) _ => .ok v
  | .error e _ => .error e

/-- A name is found at the same place, bound to related slots. -/
structure Resolution.Kept (R : Slot → Slot → Prop) (r r' : Resolution) : Prop where
  slot : R r.slot r'.slot
  frame : r'.frame = r.frame
  owner : r'.owner = r.owner
  visibility : r'.visibility = r.visibility

theorem Resolution.Kept.eq {r r' : Resolution} (h : r.Kept Eq r') : r' = r := by
  obtain ⟨s, f, o, v⟩ := r
  obtain ⟨s', f', o', v'⟩ := r'
  obtain ⟨hs, hf, ho, hv⟩ := h
  dsimp only at hs hf ho hv
  rw [hs, hf, ho, hv]

theorem Record.Kept.member? {R : Slot → Slot → Prop} {r r' : Record} (h : r.Kept R r') (n : Ident) :
    Option.Rel (fun p q => R p.1 q.1 ∧ q.2 = p.2) (r.member? n) (r'.member? n) := by
  unfold Record.member?
  have hpublic := Bindings.Related.get? h.publicMembers n
  generalize r.publicMembers.get? n = s, r'.publicMembers.get? n = s' at hpublic
  cases hpublic with
  | some hs => exact .some ⟨hs, rfl⟩
  | none =>
    have hprivate := Bindings.Related.get? h.privateMembers n
    generalize r.privateMembers.get? n = s, r'.privateMembers.get? n = s' at hprivate
    cases hprivate with
    | some hs => exact .some ⟨hs, rfl⟩
    | none => exact .none

namespace Machine

variable {R : Slot → Slot → Prop} {m m' : Machine} {n : Ident} {i : FrameId}

theorem lookupIn_kept (hf : (m.frame i).Kept R (m'.frame i))
    (hr : ∀ r, (m.frame i).record = some r → (m.record r).Kept R (m'.record r)) (n : Ident) :
    Option.Rel (Resolution.Kept R) (m.lookupIn n i) (m'.lookupIn n i) := by
  have hplain : Option.Rel (Resolution.Kept R)
      (((m.frame i).bindings.get? n).map fun s => ⟨s, i, none, .isPublic⟩)
      (((m'.frame i).bindings.get? n).map fun s => ⟨s, i, none, .isPublic⟩) := by
    have hb := Bindings.Related.get? hf.bindings n
    generalize (m.frame i).bindings.get? n = s, (m'.frame i).bindings.get? n = s' at hb
    cases hb with
    | none => exact .none
    | some hs => exact .some ⟨hs, rfl, rfl, rfl⟩
  unfold lookupIn
  dsimp only
  rw [hf.record]
  cases ho : (m.frame i).record with
  | none => exact hplain
  | some r =>
    have hmember := (hr r ho).member? n
    simp only [Option.bind_some]
    generalize (m.record r).member? n = p, (m'.record r).member? n = q at hmember
    cases hmember with
    | none => exact hplain
    | some hpq => exact .some ⟨hpq.1, rfl, rfl, hpq.2⟩

theorem lookup_kept {s : Scope}
    (h : ∀ i ∈ s.chain, Option.Rel (Resolution.Kept R) (m.lookupIn n i) (m'.lookupIn n i)) :
    Option.Rel (Resolution.Kept R) (m.lookup s n) (m'.lookup s n) := by
  unfold lookup
  generalize s.chain = chain at h
  induction chain with
  | nil => exact .none
  | cons i rest ih =>
    rw [List.findSome?_cons, List.findSome?_cons]
    have hi := h i (.head _)
    generalize m.lookupIn n i = r, m'.lookupIn n i = r' at hi
    cases hi with
    | none => exact ih fun j hj => h j (.tail _ hj)
    | some hr => exact .some hr

end Machine

/-! ## Names with a value -/

namespace Eval

variable {m m' : Machine} {c : Context} {n x : Ident} {v u : Value} {i : FrameId} {name : Text}

theorem resolve_of_meaning (h : meaning c n m = .ok v) : ∃ r, resolve c n m = .ok (r, v) m := by
  unfold meaning at h
  rcases reads_resolve c n m with ⟨⟨r, u⟩, hr⟩ | ⟨e, he⟩
  · rw [hr] at h
    cases h
    exact ⟨r, hr⟩
  · rw [he] at h
    cases h

theorem meaning_eq_ok : meaning c n m = .ok v ↔ ∃ r, m.lookup c.scope n = some r ∧
    r.slot = .value v ∧
    ∀ i, r.owner = some i → canAccess c.module (m.record i).path r.visibility = true := by
  constructor
  · intro h
    obtain ⟨r, hr⟩ := resolve_of_meaning h
    obtain ⟨-, hfound⟩ := resolve_eq_ok hr
    exact ⟨r, hfound⟩
  · rintro ⟨r, hl, hs, ha⟩
    have hopen : ((r.owner.map fun i => (m.record i).path).filter fun path =>
        !canAccess c.module path r.visibility) = none := by
      cases ho : r.owner with
      | none => rfl
      | some i => simp [Option.filter, ha i ho]
    have hread : readSlot c.module (r.owner.map fun i => (m.record i).path) r.visibility n r.slot =
        pure v := by
      unfold readSlot
      rw [hopen, hs]
    unfold meaning
    rw [resolve_of_some hl, hread]
    rfl

/-- Where slots are only changed to related ones, a name that has a value has a related one. -/
theorem meaning_related {R : Slot → Slot → Prop} (hR : ∀ v, ¬ R (.value v) .pending)
    (hattached : ∀ {i r}, (m.frame i).record = some r → r < m.records.size)
    (hk : Machine.Kept R m.frames.size m m') (hc : ∀ i ∈ c.scope.chain, i < m.frames.size)
    (h : meaning c n m = .ok v) : ∃ u, meaning c n m' = .ok u ∧ R (.value v) (.value u) := by
  have hnew : (m.frame m.frames.size).record = none := by
    unfold Machine.frame
    rw [Array.getElem?_eq_none (Nat.le_refl _)]
    rfl
  have hrecord : ∀ {i r}, (m.frame i).record = some r → (m.record r).Kept R (m'.record r) := by
    intro i r hr
    refine hk.record r (hattached hr) ?_
    rw [hnew]
    exact Option.some_ne_none r ∘ Eq.symm
  have hlookup : Option.Rel (Resolution.Kept R) (m.lookup c.scope n) (m'.lookup c.scope n) :=
    Machine.lookup_kept fun i hi =>
      Machine.lookupIn_kept (hk.frame i (hc i hi) (Nat.ne_of_lt (hc i hi))) (fun _ => hrecord) n
  obtain ⟨r, hl, hs, ha⟩ := meaning_eq_ok.mp h
  rw [hl] at hlookup
  generalize hl' : m'.lookup c.scope n = o at hlookup
  cases hlookup with
  | @some _ r' hr =>
    have howner : ∀ i, r'.owner = some i →
        canAccess c.module (m'.record i).path r'.visibility = true := by
      intro i hi
      rw [hr.owner] at hi
      obtain ⟨-, hin⟩ := Machine.lookup_eq_some hl
      obtain ⟨-, ⟨j, ho, hj, -⟩ | ⟨ho, -⟩⟩ := Machine.lookupIn_eq_some hin
      · rw [ho] at hi
        cases hi
        rw [(hrecord hj).path, hr.visibility]
        exact ha i ho
      · rw [ho] at hi
        cases hi
    have hslot := hr.slot
    rw [hs] at hslot
    cases hu : r'.slot with
    | pending =>
      rw [hu] at hslot
      exact absurd hslot (hR v)
    | value u =>
      rw [hu] at hslot
      exact ⟨u, meaning_eq_ok.mpr ⟨r', hl', hu, howner⟩, hslot⟩

/-! ## Frames that bind one name -/

/-- The name that the innermost frame binds has the value it is bound to. -/
theorem meaning_of_bound (hi : m.frame i = { name, bindings := [(x, .value v)] }) :
    meaning { c with scope := c.scope.push i } x m = .ok v := by
  have hin : m.lookupIn x i = some ⟨.value v, i, none, .isPublic⟩ := by
    simp [Machine.lookupIn, hi, Bindings.get?_cons]
  have hlookup : m.lookup (c.scope.push i) x = some ⟨.value v, i, none, .isPublic⟩ := by
    change List.findSome? (m.lookupIn x) (i :: c.scope.chain) = _
    rw [List.findSome?_cons, hin]
  exact meaning_eq_ok.mpr ⟨_, hlookup, rfl, fun _ ho => by cases ho⟩

/-- Any other name has the meaning that it has without the frame. -/
theorem meaning_of_passed (hi : m.frame i = { name, bindings := [(x, .value v)] }) (hne : x ≠ n) :
    meaning { c with scope := c.scope.push i } n m = meaning c n m := by
  have hin : m.lookupIn n i = none := by
    simp [Machine.lookupIn, hi, Bindings.get?, hne]
  have hlookup : m.lookup (c.scope.push i) n = m.lookup c.scope n := by
    change List.findSome? (m.lookupIn n) (i :: c.scope.chain) = _
    rw [List.findSome?_cons, hin]
    rfl
  unfold meaning resolve
  rw [get_bind, get_bind, hlookup]

end Eval

end ModuleScript
