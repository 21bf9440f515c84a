import ModuleScript.Proofs.Lexical
import ModuleScript.Proofs.Store

/-!
# What evaluation in a frame leaves alone

Code that runs in a frame may bind names there, and as members of the module the frame belongs to.
`Machine.Kept` says that a machine has changed in no other place: all other frames and records that
there were have kept their names, and their slots but for changes of a given kind.
-/

set_option autoImplicit false

namespace ModuleScript

/-- A function of the same name with all variants of the other and maybe more. -/
structure Closure.Extends (f g : Closure) : Prop where
  name : f.name = g.name
  variants : ∀ arity v, f.variant? arity = some v → g.variant? arity = some v

/-- The change that a new variant of a function makes to a slot, if there is one. -/
inductive Slot.Extends : Slot → Slot → Prop where
  | refl (s : Slot) : Slot.Extends s s
  | closure {f g : Closure} : f.Extends g → Slot.Extends (.value (.closure f)) (.value (.closure g))

theorem Closure.Extends.trans {f g k : Closure} (hfg : f.Extends g) (hgk : g.Extends k) :
    f.Extends k :=
  ⟨hfg.name.trans hgk.name, fun n v h => hgk.variants n v (hfg.variants n v h)⟩

theorem Closure.extends_append (f : Closure) (identity : Nat) (vs : List Variant) :
    f.Extends ⟨identity, f.name, f.variants ++ vs⟩ := by
  refine ⟨rfl, fun n v h => ?_⟩
  unfold Closure.variant? at h ⊢
  rw [List.find?_append, h]
  rfl

theorem Slot.Extends.then {s : Slot} {f g : Closure} (hs : Slot.Extends s (.value (.closure f)))
    (hfg : f.Extends g) : Slot.Extends s (.value (.closure g)) := by
  cases hs with
  | refl => exact .closure hfg
  | closure h => exact .closure (h.trans hfg)

section Kept

variable (R : Slot → Slot → Prop)

/-- The same names in the same order, bound to related slots. -/
abbrev Bindings.Kept : Bindings Slot → Bindings Slot → Prop := Bindings.Related fun _ => R

structure Frame.Kept (f f' : Frame) : Prop where
  name : f'.name = f.name
  record : f'.record = f.record
  bindings : Bindings.Kept R f.bindings f'.bindings

structure Record.Kept (r r' : Record) : Prop where
  path : r'.path = r.path
  parent : r'.parent = r.parent
  publicMembers : Bindings.Kept R r.publicMembers r'.publicMembers
  privateMembers : Bindings.Kept R r.privateMembers r'.privateMembers

/-- Of all frames and records that there were, only the frame `id` and the record attached to it may
have other contents than related ones. -/
structure Machine.Kept (id : FrameId) (m m' : Machine) : Prop where
  frames_size : m.frames.size ≤ m'.frames.size
  records_size : m.records.size ≤ m'.records.size
  attached : ∀ i < m.frames.size, (m'.frame i).record = (m.frame i).record
  attached_new : ∀ i r, m.frames.size ≤ i → (m'.frame i).record = some r → m.records.size ≤ r
  frame : ∀ i < m.frames.size, i ≠ id → (m.frame i).Kept R (m'.frame i)
  record : ∀ r < m.records.size, (m.frame id).record ≠ some r → (m.record r).Kept R (m'.record r)

end Kept

variable {R : Slot → Slot → Prop}

theorem Bindings.kept_refl (hR : ∀ s, R s s) (b : Bindings Slot) : Bindings.Kept R b b :=
  Bindings.related_refl fun p _ => hR p.2

theorem Frame.kept_refl (hR : ∀ s, R s s) (f : Frame) : f.Kept R f :=
  ⟨rfl, rfl, Bindings.kept_refl hR _⟩

theorem Record.kept_refl (hR : ∀ s, R s s) (r : Record) : r.Kept R r :=
  ⟨rfl, rfl, Bindings.kept_refl hR _, Bindings.kept_refl hR _⟩

theorem Bindings.Kept.eq {b b' : Bindings Slot} (h : Bindings.Kept Eq b b') : b' = b :=
  (Bindings.Related.eq h fun _ _ _ hs => hs).symm

theorem Frame.Kept.eq {f f' : Frame} (h : f.Kept Eq f') : f' = f := by
  obtain ⟨n, r, b⟩ := f
  obtain ⟨n', r', b'⟩ := f'
  obtain ⟨hn, hr, hb⟩ := h
  dsimp only at hn hr hb
  rw [hn, hr, Bindings.Kept.eq hb]

theorem Record.Kept.eq {r r' : Record} (h : r.Kept Eq r') : r' = r := by
  obtain ⟨p, q, b, d⟩ := r
  obtain ⟨p', q', b', d'⟩ := r'
  obtain ⟨hp, hq, hb, hd⟩ := h
  dsimp only at hp hq hb hd
  rw [hp, hq, Bindings.Kept.eq hb, Bindings.Kept.eq hd]

theorem Bindings.Kept.set {b b' : Bindings Slot} {n : Ident} {s s' : Slot}
    (h : Bindings.Kept R b b') (hs : b'.get? n = some s) (hR : ∀ t, R t s → R t s') :
    Bindings.Kept R b (b'.set n s') := by
  induction h with
  | nil => cases hs
  | @cons p q _ _ hpq h ih =>
    obtain ⟨y, t⟩ := q
    rw [Bindings.get?_cons] at hs
    unfold Bindings.set
    by_cases hy : y = n
    · rw [if_pos hy] at hs ⊢
      cases hs
      exact .cons ⟨hpq.1.trans hy, hR _ hpq.2⟩ h
    · rw [if_neg hy] at hs ⊢
      exact .cons hpq (ih hs)

namespace Machine

theorem kept_refl (hR : ∀ s, R s s) (id : FrameId) (m : Machine) : Kept R id m m where
  frames_size := Nat.le_refl _
  records_size := Nat.le_refl _
  attached _ _ := rfl
  attached_new i r hi hr := by
    have hnone : m.frame i = default := by
      unfold frame
      rw [Array.getElem?_eq_none hi]
      rfl
    rw [hnone] at hr
    cases hr
  frame _ _ _ := Frame.kept_refl hR _
  record _ _ _ := Record.kept_refl hR _

variable {id : FrameId} {m m₁ m₂ : Machine}

/-- The frame itself, or a frame made since. -/
def Open (id : FrameId) (m : Machine) (i : FrameId) : Prop :=
  i = id ∨ m.frames.size ≤ i

/-- The record attached to the frame, or a record made since. -/
def OpenRecord (id : FrameId) (m : Machine) (r : RecordId) : Prop :=
  (m.frame id).record = some r ∨ m.records.size ≤ r

theorem Kept.openRecord (h : Kept R id m m₁) {i : FrameId} (hi : Open id m i) {r : RecordId}
    (hr : (m₁.frame i).record = some r) : OpenRecord id m r := by
  by_cases hsize : m.frames.size ≤ i
  · exact .inr (h.attached_new i r hsize hr)
  · rcases hi with rfl | hi
    · rw [h.attached i (by omega)] at hr
      exact .inl hr
    · exact absurd hi hsize

theorem Kept.of_eq (h : Kept R id m m₁) (hf : m₂.frames = m₁.frames)
    (hr : m₂.records = m₁.records) : Kept R id m m₂ := by
  have hframe : ∀ i, m₂.frame i = m₁.frame i := fun i => by rw [Machine.frame, hf]; rfl
  have hrecord : ∀ r, m₂.record r = m₁.record r := fun r => by rw [Machine.record, hr]; rfl
  refine ⟨?_, ?_, ?_, ?_, ?_, ?_⟩
  · rw [hf]
    exact h.frames_size
  · rw [hr]
    exact h.records_size
  · intro i hi
    rw [hframe]
    exact h.attached i hi
  · intro i r hi
    rw [hframe]
    exact h.attached_new i r hi
  · intro i hi hne
    rw [hframe]
    exact h.frame i hi hne
  · intro r hr hne
    rw [hrecord]
    exact h.record r hr hne

theorem Kept.modifyFrame (h : Kept R id m m₁) {i : FrameId} {f : Frame → Frame}
    (hf : ∀ g, (f g).record = g.record)
    (hi : Open id m i ∨ (m.frame i).Kept R (f (m₁.frame i))) :
    Kept R id m { m₁ with frames := m₁.frames.modify i f } := by
  have hrecord (j : FrameId) : (Machine.frame { m₁ with frames := m₁.frames.modify i f } j).record =
      (m₁.frame j).record := by
    rcases frame_modify m₁ i j f with he | ⟨_, he⟩
    · rw [he]
    · rw [he, hf]
  refine ⟨?_, h.records_size, ?_, ?_, ?_, h.record⟩
  · simpa using h.frames_size
  · intro j hj
    rw [hrecord]
    exact h.attached j hj
  · intro j r hj
    rw [hrecord]
    exact h.attached_new j r hj
  · intro j hj hne
    rcases frame_modify m₁ i j f with he | ⟨rfl, he⟩
    · rw [he]
      exact h.frame j hj hne
    · rw [he]
      rcases hi with (rfl | hi) | hi
      · exact absurd rfl hne
      · omega
      · exact hi

theorem Kept.setRecord (h : Kept R id m m₁) {i : RecordId} {r : Record}
    (hi : OpenRecord id m i ∨ (m.record i).Kept R r) : Kept R id m (m₁.setRecord i r) := by
  refine ⟨h.frames_size, ?_, h.attached, h.attached_new, h.frame, ?_⟩
  · simpa [Machine.setRecord] using h.records_size
  · intro j hj hne
    rw [record_setRecord]
    split
    · rename_i hij
      obtain ⟨rfl, -⟩ := hij
      rcases hi with (hi | hi) | hi
      · exact absurd hi hne
      · omega
      · exact hi
    · exact h.record j hj hne

theorem Kept.pushFrame (h : Kept R id m m₁) {f : Frame}
    (hf : ∀ r, f.record = some r → m.records.size ≤ r) : Kept R id m (m₁.pushFrame f) := by
  have hsize := h.frames_size
  have hold : ∀ i < m.frames.size, (m₁.pushFrame f).frame i = m₁.frame i :=
    fun i hi => frame_pushFrame m₁ f (Nat.lt_of_lt_of_le hi hsize)
  refine ⟨?_, h.records_size, ?_, ?_, ?_, h.record⟩
  · simp only [Machine.pushFrame, Array.size_push]
    omega
  · intro i hi
    rw [hold i hi]
    exact h.attached i hi
  · intro i r hi
    by_cases heq : i = m₁.frames.size
    · subst heq
      simp only [Machine.pushFrame, Machine.frame, Array.getElem?_push_size]
      exact hf r
    · have hframe : (m₁.pushFrame f).frame i = m₁.frame i := by
        simp only [Machine.pushFrame, Machine.frame, Array.getElem?_push, if_neg heq]
      rw [hframe]
      exact h.attached_new i r hi
  · intro i hi hne
    rw [hold i hi]
    exact h.frame i hi hne

theorem Kept.pushRecord (h : Kept R id m m₁) (r : Record) :
    Kept R id m { m₁ with records := m₁.records.push r } := by
  have hsize := h.records_size
  refine ⟨h.frames_size, ?_, h.attached, h.attached_new, h.frame, ?_⟩
  · simp only [Array.size_push]
    omega
  · intro i hi hne
    have hold : ({ m₁ with records := m₁.records.push r } : Machine).record i = m₁.record i := by
      simp [Machine.record, Array.getElem?_push, Nat.ne_of_lt (Nat.lt_of_lt_of_le hi hsize)]
    rw [hold]
    exact h.record i hi hne

end Machine

end ModuleScript
