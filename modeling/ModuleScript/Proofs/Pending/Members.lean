import Mathlib.Logic.Relation
import ModuleScript.Proofs.Modules.Table
import ModuleScript.Proofs.Names

/-!
# Members that wait for a value

A member is pending from its declaration until its statement has run. Nothing else is ever pending:
no frame binds a name to nothing. Most of what evaluation does itself gives values only, so it leaves
no member pending that was not so before.
-/

set_option autoImplicit false

namespace ModuleScript

open Eval

namespace Machine

/-- The member of this name and tier is pending. -/
def Awaits (m : Machine) (i : RecordId) (vis : Visibility) (n : Ident) : Prop :=
  ((m.record i).members vis).get? n = some .pending

/-- No member is pending. -/
def Initialized (m : Machine) (i : RecordId) : Prop := ∀ vis n, ¬ m.Awaits i vis n

/-- The second module is the first one or lies in it, at any depth. -/
def Below (m : Machine) (i : RecordId) : RecordId → Prop :=
  Relation.ReflTransGen (fun i j => (m.record j).parent = some i) i

/-- No member of the module is pending, nor is one of a module below it. -/
def Complete (m : Machine) (i : RecordId) : Prop := ∀ j, m.Below i j → m.Initialized j

/-- No frame binds a name to nothing, no member is both public and private, frames belong to modules
that there are, and modules are younger than those around them. -/
structure Bound (m : Machine) : Prop where
  slots : ∀ f n, (n, .pending) ∉ (m.frame f).bindings
  tiered : ∀ i, (m.record i).Tiered
  attached : ∀ f i, (m.frame f).record = some i → i < m.records.size
  parents : ∀ i j, (m.record i).parent = some j → j < i ∧ j < m.records.size

/-- What is pending in the second machine is so in the first. -/
def Settles (m m' : Machine) : Prop := ∀ i vis n, m'.Awaits i vis n → m.Awaits i vis n

/-- Frames and modules have only been added, and of the modules that there were, members and modules
in them only to those `around`. -/
structure Onward (around : List RecordId) (m m' : Machine) : Prop where
  frames : m.frames.size ≤ m'.frames.size
  records : m.records.size ≤ m'.records.size
  attached : ∀ f < m.frames.size, (m'.frame f).record = (m.frame f).record
  bound : m'.Bound
  parent : ∀ i < m.records.size, (m'.record i).parent = (m.record i).parent
  children : ∀ i j, m.records.size ≤ i → (m'.record i).parent = some j →
    j ∈ around ∨ m.records.size ≤ j
  kept : ∀ i < m.records.size, i ∉ around → ∀ vis n, m'.Awaits i vis n → m.Awaits i vis n

/-- Nothing has become pending. -/
structure Calm (around : List RecordId) (m m' : Machine) : Prop where
  onward : m.Onward around m'
  settles : m.Settles m'

variable {around : List RecordId} {m m' m'' : Machine} {i j : RecordId} {vis : Visibility}
  {n : Ident}

/-! ## Machines that there are not -/

theorem record_of_le (h : m.records.size ≤ i) : m.record i = default := by
  unfold record
  rw [Array.getElem?_eq_none h]
  rfl

theorem initialized_of_le (h : m.records.size ≤ i) : m.Initialized i := by
  intro vis n hn
  unfold Awaits at hn
  rw [record_of_le h] at hn
  cases vis <;> cases hn

theorem Awaits.lt (h : m.Awaits i vis n) : i < m.records.size :=
  Nat.lt_of_not_le fun hi => initialized_of_le hi vis n h

/-! ## Modules below modules -/

theorem Bound.le_of_below (hm : m.Bound) (h : m.Below i j) : i ≤ j := by
  induction h with
  | refl => exact Nat.le_refl i
  | tail _ hp ih => exact Nat.le_trans ih (Nat.le_of_lt (hm.parents _ _ hp).1)

/-- Modules around which nothing was added have the modules below them that they had. -/
theorem Onward.below (h : m.Onward around m') (hm : m.Bound) (hi : i < m.records.size)
    (hout : ∀ r ∈ around, r < i) (hj : m'.Below i j) : m.Below i j ∧ j < m.records.size := by
  induction hj with
  | refl => exact ⟨.refl, hi⟩
  | @tail p q _ hp ih =>
    obtain ⟨hbelow, hsize⟩ := ih
    have hq : q < m.records.size := by
      refine Nat.lt_of_not_le fun hq => ?_
      rcases h.children q p hq hp with hin | hle
      · exact Nat.not_lt_of_le (hm.le_of_below hbelow) (hout p hin)
      · exact Nat.not_lt_of_le hle hsize
    rw [h.parent q hq] at hp
    exact ⟨hbelow.tail hp, hq⟩

/-- Modules that are complete stay complete, those around the code that runs apart. -/
theorem Onward.complete (h : m.Onward around m') (hm : m.Bound) (hi : i < m.records.size)
    (hout : ∀ r ∈ around, r < i) (hc : m.Complete i) : m'.Complete i := by
  intro j hj vis n hn
  obtain ⟨hbelow, hsize⟩ := h.below hm hi hout hj
  refine hc j hbelow vis n (h.kept j hsize (fun hin => ?_) vis n hn)
  exact Nat.not_lt_of_le (hm.le_of_below hbelow) (hout j hin)

/-! ## One change after another -/

theorem onward_refl (around : List RecordId) (hm : m.Bound) : m.Onward around m where
  frames := Nat.le_refl _
  records := Nat.le_refl _
  attached _ _ := rfl
  bound := hm
  parent _ _ := rfl
  children i j hi hp := by
    rw [record_of_le hi] at hp
    cases hp
  kept _ _ _ _ _ h := h

theorem Onward.trans (h : m.Onward around m') (h' : m'.Onward around m'') :
    m.Onward around m'' where
  frames := Nat.le_trans h.frames h'.frames
  records := Nat.le_trans h.records h'.records
  attached f hf := by
    rw [h'.attached f (Nat.lt_of_lt_of_le hf h.frames), h.attached f hf]
  bound := h'.bound
  parent i hi := by
    rw [h'.parent i (Nat.lt_of_lt_of_le hi h.records), h.parent i hi]
  children i j hi hp := by
    by_cases hlt : i < m'.records.size
    · rw [h'.parent i hlt] at hp
      exact h.children i j hi hp
    · exact (h'.children i j (Nat.le_of_not_lt hlt) hp).imp id (Nat.le_trans h.records)
  kept i hi hout vis n hn :=
    h.kept i hi hout vis n (h'.kept i (Nat.lt_of_lt_of_le hi h.records) hout vis n hn)

theorem settles_refl (m : Machine) : m.Settles m := fun _ _ _ h => h

theorem Settles.trans (h : m.Settles m') (h' : m'.Settles m'') : m.Settles m'' :=
  fun i vis n hn => h i vis n (h' i vis n hn)

theorem calm_refl (around : List RecordId) (hm : m.Bound) : m.Calm around m :=
  ⟨onward_refl around hm, settles_refl m⟩

theorem Calm.trans (h : m.Calm around m') (h' : m'.Calm around m'') : m.Calm around m'' :=
  ⟨h.onward.trans h'.onward, h.settles.trans h'.settles⟩

/-! ## Changes that give values only -/

theorem calm_of_eq (hm : m.Bound) (hf : m'.frames = m.frames) (hr : m'.records = m.records) :
    m.Calm around m' := by
  have hframe : ∀ f, m'.frame f = m.frame f := fun f => by rw [Machine.frame, hf]; rfl
  have hrecord : ∀ i, m'.record i = m.record i := fun i => by rw [Machine.record, hr]; rfl
  have hawaits : ∀ i vis n, m'.Awaits i vis n → m.Awaits i vis n := by
    intro i vis n hn
    unfold Awaits at hn ⊢
    rwa [hrecord] at hn
  refine ⟨⟨Nat.le_of_eq (by rw [hf]), Nat.le_of_eq (by rw [hr]), fun f _ => by rw [hframe],
    ⟨?_, ?_, ?_, ?_⟩, fun i _ => by rw [hrecord], ?_, fun i _ _ => hawaits i⟩, hawaits⟩
  · intro f n
    rw [hframe]
    exact hm.slots f n
  · intro i
    rw [hrecord]
    exact hm.tiered i
  · intro f i hi
    rw [hframe] at hi
    rw [hr]
    exact hm.attached f i hi
  · intro i j hp
    rw [hrecord] at hp
    rw [hr]
    exact hm.parents i j hp
  · intro i j hi hp
    rw [hrecord, record_of_le hi] at hp
    cases hp

theorem calm_bindings (hm : m.Bound) (f : FrameId) {b : Bindings Slot → Bindings Slot}
    (hb : ∀ n, (n, .pending) ∉ b (m.frame f).bindings) :
    m.Calm around
      { m with frames := m.frames.modify f fun g => { g with bindings := b g.bindings } } := by
  have hattached : ∀ g, (Machine.frame { m with frames := m.frames.modify f fun g =>
      { g with bindings := b g.bindings } } g).record = (m.frame g).record := by
    intro g
    rcases frame_modify m f g fun g => { g with bindings := b g.bindings } with he | ⟨-, he⟩
    · rw [he]
    · rw [he]
  refine ⟨⟨by simp, Nat.le_refl _, fun g _ => hattached g, ⟨fun g n => ?_, hm.tiered, ?_,
    hm.parents⟩, fun _ _ => rfl, (onward_refl around hm).children, fun _ _ _ _ _ h => h⟩,
    settles_refl m⟩
  · rcases frame_modify m f g fun g => { g with bindings := b g.bindings } with he | ⟨rfl, he⟩
    · rw [he]
      exact hm.slots g n
    · rw [he]
      exact hb n
  · intro g i hi
    rw [hattached] at hi
    exact hm.attached g i hi

theorem calm_setSlot (hm : m.Bound) (f : FrameId) (n : Ident) {s : Slot} (hs : s ≠ .pending) :
    m.Calm around (m.setSlot f n s) := by
  refine calm_bindings hm f (b := (·.set n s)) fun x hx => ?_
  rcases Bindings.mem_set hx with hx | ⟨-, hx⟩
  · exact hm.slots f x hx
  · exact hs hx.symm

theorem calm_eraseSlot (hm : m.Bound) (f : FrameId) (n : Ident) :
    m.Calm around (m.eraseSlot f n) :=
  calm_bindings hm f (b := (·.erase n)) fun x hx => hm.slots f x (Bindings.mem_of_mem_erase hx)

theorem calm_pushFrame (hm : m.Bound) {f : Frame} (hf : ∀ n, (n, .pending) ∉ f.bindings)
    (hr : ∀ i, f.record = some i → i < m.records.size) : m.Calm around (m.pushFrame f) := by
  refine ⟨⟨by simp [pushFrame], Nat.le_refl _, fun g hg => by rw [frame_pushFrame m f hg],
    ⟨fun g n => ?_, hm.tiered, fun g i hi => ?_, hm.parents⟩, fun _ _ => rfl,
    (onward_refl around hm).children, fun _ _ _ _ _ h => h⟩, settles_refl m⟩
  · rw [frame_push]
    split
    · exact hf n
    · exact hm.slots g n
  · rw [frame_push] at hi
    split at hi
    · exact hr i hi
    · exact hm.attached g i hi

/-- A record changes in its members only. -/
theorem onward_setRecord (hm : m.Bound) {r : Record} (hp : r.parent = (m.record i).parent)
    (ht : r.Tiered) (hk : i < m.records.size → i ∉ around → ∀ vis n,
      (r.members vis).get? n = some .pending → m.Awaits i vis n) :
    m.Onward around (m.setRecord i r) := by
  have hparent : ∀ j, ((m.setRecord i r).record j).parent = (m.record j).parent := by
    intro j
    rw [record_setRecord]
    split
    · rename_i hij
      rw [hp, hij.1]
    · rfl
  have hsize : (m.setRecord i r).records.size = m.records.size := by simp [setRecord]
  refine ⟨Nat.le_refl _, Nat.le_of_eq hsize.symm, fun _ _ => rfl, ⟨hm.slots, fun j => ?_,
    fun f j hj => hsize ▸ hm.attached f j hj, fun j q hq => ?_⟩, fun j _ => hparent j,
    fun j q hj hq => ?_, fun j hj hout vis n hn => ?_⟩
  · rw [record_setRecord]
    split
    · exact ht
    · exact hm.tiered j
  · rw [hparent] at hq
    exact hsize ▸ hm.parents j q hq
  · rw [hparent, record_of_le hj] at hq
    cases hq
  · unfold Awaits at hn
    rw [record_setRecord] at hn
    split at hn
    · rename_i hij
      obtain ⟨rfl, hi⟩ := hij
      exact hk hi hout vis n hn
    · exact hn

/-- A member that has been given a value is not pending, whatever its tier. -/
theorem awaits_defineMember (hm : m.Bound) (i : RecordId) (n : Ident) (v : Value)
    (w vis : Visibility) : ¬ (m.defineMember i n (.value v) w).Awaits i vis n := by
  intro h
  unfold Awaits defineMember at h
  rw [record_setRecord] at h
  split at h
  · have htier := Record.tiered_define (hm.tiered i) n (.value v) w n
    unfold Record.define at h htier
    rw [Record.get?_setMember] at h
    split at h
    · cases h
    · rename_i hne
      generalize ((m.record i).visibility? n).getD w = u at hne htier
      rw [Bindings.has_eq_isSome, Bindings.has_eq_isSome] at htier
      cases u <;> cases vis
      · exact hne ⟨rfl, rfl⟩
      · refine htier ⟨?_, ?_⟩
        · simp [Record.setMember, Bindings.get?_set]
        · exact Option.isSome_iff_exists.mpr ⟨_, h⟩
      · refine htier ⟨?_, ?_⟩
        · exact Option.isSome_iff_exists.mpr ⟨_, h⟩
        · simp [Record.setMember, Bindings.get?_set]
      · exact hne ⟨rfl, rfl⟩
  · rename_i hi
    have hout : m.records.size ≤ i := Nat.le_of_not_lt fun hlt => hi ⟨rfl, hlt⟩
    rw [record_of_le hout] at h
    cases vis <;> cases h

theorem settles_defineMember (m : Machine) (i : RecordId) (n : Ident) (v : Value)
    (w : Visibility) : m.Settles (m.defineMember i n (.value v) w) := by
  intro j vis x hx
  unfold Awaits defineMember at hx
  rw [record_setRecord] at hx
  split at hx
  · rename_i hij
    obtain ⟨rfl, -⟩ := hij
    unfold Record.define at hx
    rw [Record.get?_setMember] at hx
    split at hx
    · cases hx
    · exact hx
  · exact hx

theorem onward_defineMember (hm : m.Bound) (i : RecordId) (n : Ident) (s : Slot) (w : Visibility)
    (hs : i ∈ around ∨ ∃ v, s = .value v) : m.Onward around (m.defineMember i n s w) := by
  refine onward_setRecord hm (parent_setMember _ _ _ _) (Record.tiered_define (hm.tiered i) n s w)
    fun hi hout vis x hx => ?_
  obtain ⟨v, rfl⟩ := hs.resolve_left hout
  have hset : (m.defineMember i n (.value v) w).Awaits i vis x := by
    unfold Awaits defineMember
    rw [record_setRecord, if_pos ⟨rfl, hi⟩]
    exact hx
  exact settles_defineMember m i n v w i vis x hset

theorem calm_defineMember (hm : m.Bound) (i : RecordId) (n : Ident) (v : Value) (w : Visibility) :
    m.Calm around (m.defineMember i n (.value v) w) :=
  ⟨onward_defineMember hm i n _ w (.inr ⟨v, rfl⟩), settles_defineMember m i n v w⟩

/-- A new module has no members yet. -/
theorem calm_pushRecord (hm : m.Bound) {r : Record} (hr : ∀ vis, r.members vis = [])
    (registry : List (ModulePath × RecordId))
    (hp : ∀ j, r.parent = some j → j ∈ around ∧ j < m.records.size) :
    m.Calm around { m with records := m.records.push r, registry := registry } := by
  let k : Machine := { m with records := m.records.push r, registry := registry }
  change m.Calm around k
  have hrecord : ∀ i, k.record i = if i = m.records.size then r else m.record i :=
    record_push m r registry
  have hsize : k.records.size = m.records.size + 1 := Array.size_push _
  have hle : m.records.size ≤ k.records.size := hsize ▸ Nat.le_succ _
  have hawaits : ∀ i vis n, k.Awaits i vis n → m.Awaits i vis n := by
    intro i vis n hn
    unfold Awaits at hn
    rw [hrecord] at hn
    split at hn
    · rw [hr] at hn
      cases hn
    · exact hn
  refine ⟨⟨Nat.le_refl _, hle, fun _ _ => rfl, ⟨hm.slots, fun i => ?_, fun f i hi => ?_,
    fun i j hj => ?_⟩, fun i hi => ?_, fun i j hi hj => ?_, fun i _ _ => hawaits i⟩, hawaits⟩
  · rw [hrecord]
    split
    · intro n hn
      rw [show r.publicMembers = [] from hr .isPublic] at hn
      cases hn.1
    · exact hm.tiered i
  · exact Nat.lt_of_lt_of_le (hm.attached f i hi) hle
  · rw [hrecord] at hj
    split at hj
    · rename_i hi
      have hlt := (hp j hj).2
      exact ⟨hi ▸ hlt, Nat.lt_of_lt_of_le hlt hle⟩
    · obtain ⟨hij, hlt⟩ := hm.parents i j hj
      exact ⟨hij, Nat.lt_of_lt_of_le hlt hle⟩
  · rw [hrecord, if_neg (Nat.ne_of_lt hi)]
  · rw [hrecord] at hj
    split at hj
    · exact .inl (hp j hj).1
    · rw [record_of_le hi] at hj
      cases hj

end Machine

end ModuleScript
