import Mathlib.Data.List.Forall2
import ModuleScript.Store.Machine

/-!
# The store before and after a change

Bindings are related when they bind the same names in the same order to related things. A name that
is bound after a change was bound before or is the one that was set; a frame or record other than
the one changed is as it was.
-/

set_option autoImplicit false

namespace ModuleScript

namespace Bindings

variable {α : Type}

theorem mem_set {b : Bindings α} {n x : Ident} {s t : α} (h : (x, t) ∈ b.set n s) :
    (x, t) ∈ b ∨ x = n ∧ t = s := by
  induction b with
  | nil =>
    rw [set, List.mem_singleton] at h
    exact .inr (Prod.mk.inj h)
  | cons p b ih =>
    obtain ⟨y, u⟩ := p
    unfold set at h
    split at h
    · rcases List.mem_cons.mp h with h | h
      · exact .inr (Prod.mk.inj h)
      · exact .inl (.tail _ h)
    · rcases List.mem_cons.mp h with h | h
      · exact .inl (h ▸ .head _)
      · rcases ih h with h | h
        · exact .inl (.tail _ h)
        · exact .inr h

theorem mem_of_mem_erase {b : Bindings α} {n : Ident} {p : Ident × α}
    (h : p ∈ b.erase n) : p ∈ b :=
  (List.mem_filter.mp h).1

theorem mem_of_get? {b : Bindings α} {n : Ident} {s : α} (h : b.get? n = some s) :
    (n, s) ∈ b := by
  induction b with
  | nil => cases h
  | cons p b ih =>
    obtain ⟨x, t⟩ := p
    rw [Bindings.get?_cons] at h
    by_cases hx : x = n
    · rw [if_pos hx] at h
      cases h
      rw [hx]
      exact .head _
    · rw [if_neg hx] at h
      exact .tail _ (ih h)

/-- The same names in the same order, bound to related things. -/
def Related {β : Type} (R : Ident → α → β → Prop) : Bindings α → Bindings β → Prop :=
  List.Forall₂ fun p q => p.1 = q.1 ∧ R p.1 p.2 q.2

variable {β : Type} {R : Ident → α → β → Prop} {b : Bindings α} {b' : Bindings β}

theorem related_refl {R : Ident → α → α → Prop} {b : Bindings α}
    (h : ∀ p ∈ b, R p.1 p.2 p.2) : Related R b b :=
  List.forall₂_same.mpr fun p hp => ⟨rfl, h p hp⟩

theorem Related.imp {R' : Ident → α → β → Prop} (h : Related R b b')
    (hR : ∀ n s t, R n s t → R' n s t) : Related R' b b' :=
  List.Forall₂.imp (fun p q hpq => ⟨hpq.1, hR p.1 p.2 q.2 hpq.2⟩) h

theorem Related.eq {R : Ident → α → α → Prop} {b b' : Bindings α} (h : Related R b b')
    (hR : ∀ n s t, R n s t → s = t) : b = b' := by
  induction h with
  | nil => rfl
  | cons hpq _ ih => rw [ih, Prod.ext hpq.1 (hR _ _ _ hpq.2)]

theorem Related.get? (h : Related R b b') (n : Ident) :
    Option.Rel (R n) (b.get? n) (b'.get? n) := by
  induction h with
  | nil => exact .none
  | @cons p q _ _ hpq _ ih =>
    obtain ⟨x, s⟩ := p
    obtain ⟨y, t⟩ := q
    obtain ⟨hxy, hs⟩ := hpq
    dsimp only at hxy hs
    subst hxy
    rw [get?_cons, get?_cons]
    by_cases hx : x = n
    · rw [if_pos hx, if_pos hx, ← hx]
      exact .some hs
    · rw [if_neg hx, if_neg hx]
      exact ih

theorem Related.has_eq (h : Related R b b') (n : Ident) : b.has n = b'.has n := by
  rw [has_eq_isSome, has_eq_isSome]
  have hn := h.get? n
  generalize b.get? n = s, b'.get? n = t at hn
  cases hn with
  | none => rfl
  | some _ => rfl

theorem Related.set (h : Related R b b') {n : Ident} {s : α} {t : β} (hn : R n s t) :
    Related R (b.set n s) (b'.set n t) := by
  induction h with
  | nil => exact .cons ⟨rfl, hn⟩ .nil
  | @cons p q _ _ hpq h ih =>
    obtain ⟨x, u⟩ := p
    obtain ⟨y, u'⟩ := q
    obtain ⟨hxy, hu⟩ := hpq
    dsimp only at hxy hu
    subst hxy
    unfold Bindings.set
    by_cases hx : x = n
    · rw [if_pos hx, if_pos hx]
      exact .cons ⟨rfl, hn⟩ h
    · rw [if_neg hx, if_neg hx]
      exact .cons ⟨rfl, hu⟩ ih

theorem Related.erase (h : Related R b b') (n : Ident) : Related R (b.erase n) (b'.erase n) := by
  induction h with
  | nil => exact .nil
  | @cons p q _ _ hpq _ ih =>
    obtain ⟨x, s⟩ := p
    obtain ⟨y, t⟩ := q
    obtain ⟨hxy, hs⟩ := hpq
    dsimp only at hxy hs
    subst hxy
    unfold Bindings.erase at ih ⊢
    rw [List.filter_cons, List.filter_cons]
    split
    · exact .cons ⟨rfl, hs⟩ ih
    · exact ih

end Bindings

theorem Record.mem_setMember {r : Record} {w vis : Visibility} {n x : Ident} {s t : Slot}
    (h : (x, t) ∈ (r.setMember w n s).members vis) : (x, t) ∈ r.members vis ∨ t = s := by
  cases w <;> cases vis
  · exact (Bindings.mem_set h).imp id And.right
  · exact .inl h
  · exact .inl h
  · exact (Bindings.mem_set h).imp id And.right

theorem Record.get?_setMember (r : Record) (w vis : Visibility) (n x : Ident) (s : Slot) :
    ((r.setMember w n s).members vis).get? x =
      if w = vis ∧ n = x then some s else (r.members vis).get? x := by
  cases w <;> cases vis <;> simp [setMember, members, Bindings.get?_set]

theorem Record.path_setMember (r : Record) (v : Visibility) (x : Ident) (s : Slot) :
    (r.setMember v x s).path = r.path := by
  cases v <;> rfl

namespace Machine

theorem frame_modify (m : Machine) (i j : FrameId) (f : Frame → Frame) :
    ({ m with frames := m.frames.modify i f } : Machine).frame j = m.frame j ∨
      i = j ∧ ({ m with frames := m.frames.modify i f } : Machine).frame j = f (m.frame j) := by
  unfold frame
  dsimp only
  rw [Array.getElem?_modify]
  by_cases hij : i = j
  · subst hij
    cases m.frames[i]? with
    | none =>
      rw [if_pos rfl]
      exact .inl rfl
    | some f =>
      rw [if_pos rfl]
      exact .inr ⟨rfl, rfl⟩
  · rw [if_neg hij]
    exact .inl rfl

theorem frame_modify_eq (m : Machine) (i j : FrameId) (f : Frame → Frame) :
    ({ m with frames := m.frames.modify i f } : Machine).frame j =
      if i = j ∧ i < m.frames.size then f (m.frame j) else m.frame j := by
  unfold frame
  dsimp only
  rw [Array.getElem?_modify]
  by_cases hij : i = j
  · subst hij
    by_cases hi : i < m.frames.size
    · rw [if_pos rfl, if_pos ⟨rfl, hi⟩, Array.getElem?_eq_getElem hi]
      rfl
    · rw [if_pos rfl, if_neg fun h => hi h.2, Array.getElem?_eq_none (Nat.le_of_not_lt hi)]
      rfl
  · rw [if_neg hij, if_neg fun h => hij h.1]

theorem record_setRecord (m : Machine) (i j : RecordId) (r : Record) :
    (m.setRecord i r).record j = if i = j ∧ i < m.records.size then r else m.record j := by
  unfold record setRecord
  dsimp only
  rw [Array.getElem?_modify]
  by_cases hij : i = j
  · subst hij
    by_cases hi : i < m.records.size
    · rw [if_pos rfl, if_pos ⟨rfl, hi⟩, Array.getElem?_eq_getElem hi]
      rfl
    · rw [if_pos rfl, if_neg fun h => hi h.2, Array.getElem?_eq_none (Nat.le_of_not_lt hi)]
      rfl
  · rw [if_neg hij, if_neg fun h => hij h.1]

theorem record_push (m : Machine) (r : Record) (registry : List (ModulePath × RecordId))
    (i : RecordId) :
    ({ m with records := m.records.push r, registry := registry } : Machine).record i =
      if i = m.records.size then r else m.record i := by
  unfold record
  rw [Array.getElem?_push]
  split
  · rfl
  · rfl

theorem frame_push (m : Machine) (f : Frame) (i : FrameId) :
    (m.pushFrame f).frame i = if i = m.frames.size then f else m.frame i := by
  unfold frame pushFrame
  rw [Array.getElem?_push]
  split
  · rfl
  · rfl

theorem frame_pushFrame_size (m : Machine) (f : Frame) :
    (m.pushFrame f).frame m.frames.size = f := by
  simp [frame, pushFrame]

theorem lt_exports_size {m : Machine} {i : ExportsId} {n : Ident} {v : Value}
    (h : (m.exportsOf i).get? n = some v) : i < m.exports.size := by
  refine Nat.lt_of_not_le fun hi => ?_
  unfold exportsOf at h
  rw [Array.getElem?_eq_none hi] at h
  cases h

theorem exportsOf_push (m : Machine) (i : ExportsId) :
    ({ m with exports := m.exports.push [] } : Machine).exportsOf i =
      if i = m.exports.size then [] else m.exportsOf i := by
  unfold exportsOf
  rw [Array.getElem?_push]
  split <;> rfl

theorem exportsOf_modify (m : Machine) (i j : ExportsId) (f : Exports → Exports) :
    ((m.exports.modify i f)[j]?).getD [] = m.exportsOf j ∨
      ((m.exports.modify i f)[j]?).getD [] = f (m.exportsOf j) := by
  unfold exportsOf
  rw [Array.getElem?_modify]
  cases m.exports[j]? with
  | none =>
    split
    · exact .inl rfl
    · exact .inl rfl
  | some e =>
    split
    · exact .inr rfl
    · exact .inl rfl

theorem exportsOf_modify_eq (m : Machine) (i j : ExportsId) (f : Exports → Exports) :
    ({ m with exports := m.exports.modify i f } : Machine).exportsOf j =
      if i = j ∧ i < m.exports.size then f (m.exportsOf j) else m.exportsOf j := by
  unfold exportsOf
  dsimp only
  rw [Array.getElem?_modify]
  by_cases hij : i = j
  · subst hij
    by_cases hi : i < m.exports.size
    · rw [if_pos rfl, if_pos ⟨rfl, hi⟩, Array.getElem?_eq_getElem hi]
      rfl
    · rw [if_pos rfl, if_neg fun h => hi h.2, Array.getElem?_eq_none (Nat.le_of_not_lt hi)]
      rfl
  · rw [if_neg hij, if_neg fun h => hij h.1]

theorem find?_setLoaded (p q : Path) (e : Exports) (es : List (Path × Exports)) :
    ((setLoaded p e es).find? (·.1 == q)).map (·.2) =
      if p = q then some e else (es.find? (·.1 == q)).map (·.2) := by
  induction es with
  | nil =>
    unfold setLoaded
    by_cases hpq : p = q <;> simp [hpq]
  | cons r es ih =>
    obtain ⟨k, old⟩ := r
    unfold setLoaded
    by_cases hk : k = p
    · subst hk
      by_cases hkq : k = q <;> simp [hkq]
    · by_cases hkq : k = q
      · subst hkq
        simp [Ne.symm hk, hk]
      · simpa [hk, hkq] using ih

theorem loaded?_setLoaded (m : Machine) (p q : Path) (e : Exports) :
    ({ m with loaded := setLoaded p e m.loaded } : Machine).loaded? q =
      if p = q then some e else m.loaded? q :=
  find?_setLoaded p q e m.loaded

theorem mem_setLoaded {p q : Path} {e d : Exports} {es : List (Path × Exports)}
    (h : (q, d) ∈ setLoaded p e es) : (q, d) ∈ es ∨ d = e := by
  induction es with
  | nil => exact .inr (Prod.mk.inj (List.mem_singleton.mp h)).2
  | cons r es ih =>
    obtain ⟨k, old⟩ := r
    unfold setLoaded at h
    split at h
    · rcases List.mem_cons.mp h with h | h
      · exact .inr (Prod.mk.inj h).2
      · exact .inl (.tail _ h)
    · rcases List.mem_cons.mp h with h | h
      · exact .inl (h ▸ .head _)
      · rcases ih h with h | h
        · exact .inl (.tail _ h)
        · exact .inr h

theorem beginLoading_eq_ok {m m' : Machine} {p : Path} (h : m.beginLoading p = .ok m') :
    p ∉ m.loading ∧ m' = { m with loading := m.loading ++ [p] } := by
  unfold beginLoading at h
  split at h
  · cases h
  · rename_i hp
    cases h
    exact ⟨hp, rfl⟩

theorem beginLoading_of_mem {m : Machine} {p : Path} (h : p ∈ m.loading) :
    m.beginLoading p =
      .error (.report (Cause.circularImport ((m.loading ++ [p]).map Path.text)).report) :=
  if_pos h

theorem beginLoading_of_notMem {m : Machine} {p : Path} (h : p ∉ m.loading) :
    m.beginLoading p = .ok { m with loading := m.loading ++ [p] } :=
  if_neg h

theorem finishLoading_of_mem {m : Machine} {p : Path} (h : p ∈ m.loading) (e : Exports) :
    m.finishLoading p e =
      .ok { m with loading := m.loading.erase p, loaded := setLoaded p e m.loaded } :=
  if_pos h

theorem finishLoading_eq_ok {m m' : Machine} {p : Path} {e : Exports}
    (h : m.finishLoading p e = .ok m') :
    p ∈ m.loading ∧
      m' = { m with loading := m.loading.erase p, loaded := setLoaded p e m.loaded } := by
  unfold finishLoading at h
  split at h
  · rename_i hp
    cases h
    exact ⟨hp, rfl⟩
  · cases h

theorem module?_removeModule (m : Machine) (p q : ModulePath) :
    (m.removeModule p).module? q = if p.within q then none else m.module? q := by
  unfold module? removeModule
  rw [List.find?_filter]
  split
  · rename_i hw
    rw [List.find?_eq_none.mpr, Option.map_none]
    rintro ⟨r, i⟩ -
    by_cases hr : r = q
    · subst hr
      simp [hw]
    · simp [hr]
  · rename_i hw
    refine congrArg (Option.map Prod.snd) (congrArg (List.find? · m.registry) (funext fun r => ?_))
    by_cases hr : r.1 = q
    · simp [hr, hw]
    · simp [hr]

theorem module?_pushRecord {m : Machine} {p : ModulePath} (h : m.module? p = none)
    (rs : Array Record) (i : RecordId) (q : ModulePath) :
    ({ m with records := rs, registry := m.registry ++ [(p, i)] } : Machine).module? q =
      if p = q then some i else m.module? q := by
  unfold module? at h ⊢
  rw [List.find?_append]
  split
  · rename_i hpq
    subst hpq
    rw [Option.map_eq_none_iff.mp h]
    simp
  · rename_i hpq
    cases m.registry.find? (·.1 == q) <;> simp [hpq]

theorem declareModule_of_some {m : Machine} {p : ModulePath} {i : RecordId} (h : m.module? p = some i)
    (parent : Option RecordId) :
    m.declareModule p parent = .error (.report (Cause.moduleExists p.text p.source).report) := by
  unfold declareModule
  rw [h]
  rfl

theorem declareModule_of_none {m : Machine} {p : ModulePath} (h : m.module? p = none)
    (parent : Option RecordId) :
    m.declareModule p parent = .ok (m.records.size,
      { m with records := m.records.push { path := p, parent := parent },
               registry := m.registry ++ [(p, m.records.size)] }) := by
  unfold declareModule
  rw [h]

end Machine

end ModuleScript
