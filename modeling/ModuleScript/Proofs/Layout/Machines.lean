import ModuleScript.Proofs.Layout.Basic
import ModuleScript.Proofs.Modules.Table

/-!
# Machines along a layout

Two machines correspond along a layout when each shared frame holds what its counterpart holds, the
frames that stand aside hold what they were made with, and all else is the same. The frames that a
session starts with are their own counterparts. What is done alike to
both keeps them so, and so does a frame that is made on both or stands aside.
-/

set_option autoImplicit false

namespace ModuleScript

open Eval

namespace Layout

structure Frames (w : Layout) (f f' : Frame) : Prop where
  name : f.name = f'.name
  record : f.record = f'.record
  bindings : w.like.Contents f.bindings f'.bindings

structure Records (w : Layout) (r r' : Record) : Prop where
  members : w.like.Records r r'
  parent : r.parent = r'.parent

/-- All but the frames corresponds, in the same places. -/
structure Stores (w : Layout) (m n : Machine) : Prop where
  records : m.records.size = n.records.size
  record : ∀ i, w.Records (m.record i) (n.record i)
  registry : m.registry = n.registry
  exports : m.exports.size = n.exports.size
  exported : ∀ i, w.like.Exported (m.exportsOf i) (n.exportsOf i)
  loaded : ∀ p, Option.Rel w.like.Exported (m.loaded? p) (n.loaded? p)
  loading : m.loading = n.loading
  functions : m.functions = n.functions
  input : m.input = n.input
  written : m.written = n.written

structure Machines (w : Layout) (m n : Machine) : Prop extends Stores w m n where
  ground : start 3 <+: w
  size : w.length = n.frames.size
  made : ∀ {i j}, w.Places i j → i < m.frames.size
  alone : ∀ {i j j'}, w.Places i j → w.Places i j' → j = j'
  frame : ∀ {i j}, w.Places i j → w.Frames (m.frame i) (n.frame j)
  aside : ∀ {j f}, w[j]? = some (.aside f) → n.frame j = f

variable {w w' : Layout} {m n : Machine} {i j i' j' : FrameId}

/-! ## Growth -/

section Later

variable (hl : w <+: w')

include hl

theorem Frames.later {f f' : Frame} (h : w.Frames f f') : w'.Frames f f' :=
  ⟨h.name, h.record, Likeness.contents_mono (matches_later hl) h.bindings⟩

theorem Records.later {r r' : Record} (h : w.Records r r') : w'.Records r r' :=
  ⟨h.members.mono (matches_later hl), h.parent⟩

theorem Stores.later (h : w.Stores m n) : w'.Stores m n where
  records := h.records
  record i := (h.record i).later hl
  registry := h.registry
  exports := h.exports
  exported i := exported_later hl (h.exported i)
  loaded p := by
    have hp := h.loaded p
    generalize m.loaded? p = e, n.loaded? p = e' at hp
    cases hp with
    | none => exact .none
    | some he => exact .some (exported_later hl he)
  loading := h.loading
  functions := h.functions
  input := h.input
  written := h.written

end Later

/-! ## Records -/

theorem Records.setMember {r r' : Record} {s s' : Slot} (h : w.Records r r') (v : Visibility)
    (x : Ident) (hs : w.like.Slots s s') : w.Records (r.setMember v x s) (r'.setMember v x s') := by
  refine ⟨h.members.setMember v x hs, ?_⟩
  rw [Machine.parent_setMember, Machine.parent_setMember, h.parent]

theorem Records.define {r r' : Record} {s s' : Slot} (h : w.Records r r') (x : Ident)
    (hs : w.like.Slots s s') (v : Visibility) : w.Records (r.define x s v) (r'.define x s' v) := by
  unfold Record.define
  rw [h.members.visibility?_eq]
  exact h.setMember _ x hs

theorem Records.declare {r r' : Record} (h : w.Records r r') (x : Ident) (v : Visibility) :
    ExceptRel w.Records (r.declare x v) (r'.declare x v) := by
  unfold Record.declare
  rw [h.members.visibility?_eq, h.members.path]
  cases r'.visibility? x with
  | none => exact .ok (h.setMember v x .pending)
  | some u =>
    dsimp only
    split
    · exact .ok h
    · exact .error _

/-! ## New frames -/

namespace Machines

theorem places_iff (h : w.Machines m n) (hp : w.Places i j) (hp' : w.Places i' j') :
    i = i' ↔ j = j' := by
  constructor
  · rintro rfl
    exact h.alone hp hp'
  · rintro rfl
    exact hp.eq hp'

/-- A frame made in both runs. -/
theorem pushFrame (h : w.Machines m n) {f f' : Frame} (hf : w.Frames f f') :
    Machines (w ++ [.shared m.frames.size]) (m.pushFrame f) (n.pushFrame f') := by
  have hl : w <+: w ++ [.shared m.frames.size] := List.prefix_append w _
  have hnew : ∀ {i j}, Places (w ++ [.shared m.frames.size]) i j →
      w.Places i j ∨ j = w.length ∧ i = m.frames.size := by
    intro i j hp
    rcases places_push.mp hp with hp | ⟨hj, hi⟩
    · exact .inl hp
    · exact .inr ⟨hj, (Berth.shared.inj hi).symm⟩
  refine { h.toStores.later hl with
    ground := h.ground.trans hl, size := ?_, made := ?_, alone := ?_, frame := ?_, aside := ?_ }
  · simp [Machine.pushFrame, h.size]
  · intro i j hp
    simp only [Machine.pushFrame, Array.size_push]
    rcases hnew hp with hp | ⟨-, rfl⟩
    · exact Nat.lt_succ_of_lt (h.made hp)
    · exact Nat.lt_succ_self _
  · intro i j j' hp hp'
    rcases hnew hp with hp | ⟨rfl, hi⟩ <;> rcases hnew hp' with hp' | ⟨rfl, hi'⟩
    · exact h.alone hp hp'
    · exact absurd hi' (Nat.ne_of_lt (h.made hp))
    · exact absurd hi (Nat.ne_of_lt (h.made hp'))
    · rfl
  · intro i j hp
    rw [Machine.frame_push, Machine.frame_push]
    rcases hnew hp with hp | ⟨rfl, rfl⟩
    · rw [if_neg (Nat.ne_of_lt (h.made hp)), if_neg (Nat.ne_of_lt (h.size ▸ hp.lt))]
      exact (h.frame hp).later hl
    · rw [if_pos rfl, if_pos h.size]
      exact hf.later hl
  · intro j g hj
    rcases getElem?_push.mp hj with hj | ⟨-, hne⟩
    · have hlt : j < w.length := (List.getElem?_eq_some_iff.mp hj).1
      rw [Machine.frame_push, if_neg (Nat.ne_of_lt (h.size ▸ hlt))]
      exact h.aside hj
    · cases hne

/-- A frame made in the second run only. -/
theorem pushAside (h : w.Machines m n) (f : Frame) :
    Machines (w ++ [.aside f]) m (n.pushFrame f) := by
  have hl : w <+: w ++ [.aside f] := List.prefix_append w _
  have hold : ∀ {i j}, Places (w ++ [.aside f]) i j → w.Places i j := by
    intro i j hp
    rcases places_push.mp hp with hp | ⟨-, hne⟩
    · exact hp
    · cases hne
  have hframe : ∀ {j}, j < w.length → (n.pushFrame f).frame j = n.frame j := by
    intro j hj
    rw [Machine.frame_push, if_neg (Nat.ne_of_lt (h.size ▸ hj))]
  refine { h.toStores.later hl with
    ground := h.ground.trans hl, size := ?_, made := ?_, alone := ?_, frame := ?_, aside := ?_ }
  · simp [Machine.pushFrame, h.size]
  · exact fun hp => h.made (hold hp)
  · exact fun hp hp' => h.alone (hold hp) (hold hp')
  · intro i j hp
    rw [hframe (hold hp).lt]
    exact (h.frame (hold hp)).later hl
  · intro j g hj
    rcases getElem?_push.mp hj with hj | ⟨rfl, he⟩
    · rw [hframe (List.getElem?_eq_some_iff.mp hj).1]
      exact h.aside hj
    · cases he
      rw [h.size, Machine.frame_pushFrame_size]

/-! ## Bindings -/

/-- What is done to a shared frame is done to its counterpart and to no other frame. -/
theorem modifyBindings (h : w.Machines m n) (hp : w.Places i j) {a b : Bindings Slot → Bindings Slot}
    (hab : ∀ {d e}, w.like.Contents d e → w.like.Contents (a d) (b e)) :
    w.Machines
      { m with frames := m.frames.modify i fun f => { f with bindings := a f.bindings } }
      { n with frames := n.frames.modify j fun f => { f with bindings := b f.bindings } } := by
  have hsize : j < n.frames.size := h.size ▸ hp.lt
  refine { h with size := ?_, made := ?_, frame := ?_, aside := ?_ }
  · simpa using h.size
  · intro i' j' hp'
    simpa using h.made hp'
  · intro i' j' hp'
    rw [Machine.frame_modify_eq, Machine.frame_modify_eq]
    have hframe := h.frame hp'
    have hiff := h.places_iff hp hp'
    by_cases hi : i = i'
    · rw [if_pos ⟨hi, h.made hp⟩, if_pos ⟨hiff.mp hi, hsize⟩]
      exact ⟨hframe.name, hframe.record, hab hframe.bindings⟩
    · rw [if_neg fun he => hi he.1, if_neg fun he => hi (hiff.mpr he.1)]
      exact hframe
  · intro j' f hj'
    have hne : j ≠ j' := by
      rintro rfl
      cases hp.symm.trans hj'
    rw [Machine.frame_modify_eq, if_neg fun he => hne he.1]
    exact h.aside hj'

theorem setSlot (h : w.Machines m n) (hp : w.Places i j) (x : Ident) {s s' : Slot}
    (hs : w.like.Slots s s') : w.Machines (m.setSlot i x s) (n.setSlot j x s') :=
  h.modifyBindings hp (a := (·.set x s)) (b := (·.set x s')) fun hd => hd.set hs

theorem eraseSlot (h : w.Machines m n) (hp : w.Places i j) (x : Ident) :
    w.Machines (m.eraseSlot i x) (n.eraseSlot j x) :=
  h.modifyBindings hp (a := (·.erase x)) (b := (·.erase x)) fun hd => hd.erase x

/-! ## Everything else -/

/-- The frames stay as they are where only the rest of the machines changes. -/
theorem ofStores {m' n' : Machine} (h : w.Machines m n) (hm : m'.frames = m.frames)
    (hn : n'.frames = n.frames) (hs : w.Stores m' n') : w.Machines m' n' := by
  have hframe : ∀ i, m'.frame i = m.frame i := fun i => by rw [Machine.frame, hm]; rfl
  have hframe' : ∀ j, n'.frame j = n.frame j := fun j => by rw [Machine.frame, hn]; rfl
  refine { hs with
    ground := h.ground, size := ?_, made := ?_, alone := h.alone, frame := ?_, aside := ?_ }
  · rw [hn, h.size]
  · intro i j hp
    rw [hm]
    exact h.made hp
  · intro i j hp
    rw [hframe, hframe']
    exact h.frame hp
  · intro j f hj
    rw [hframe']
    exact h.aside hj

theorem setRecord (h : w.Machines m n) (i : RecordId) {r r' : Record} (hr : w.Records r r') :
    w.Machines (m.setRecord i r) (n.setRecord i r') := by
  refine h.ofStores rfl rfl { h.toStores with records := ?_, record := fun j => ?_ }
  · simpa [Machine.setRecord] using h.records
  · rw [Machine.record_setRecord, Machine.record_setRecord, h.records]
    split
    · exact hr
    · exact h.record j

theorem defineMember (h : w.Machines m n) (i : RecordId) (x : Ident) {s s' : Slot}
    (hs : w.like.Slots s s') (v : Visibility) :
    w.Machines (m.defineMember i x s v) (n.defineMember i x s' v) :=
  h.setRecord i ((h.record i).define x hs v)

theorem pushRecord (h : w.Machines m n) (p : ModulePath) (parent : Option RecordId)
    (registry : List (ModulePath × RecordId)) :
    w.Machines { m with records := m.records.push { path := p, parent }, registry := registry }
      { n with records := n.records.push { path := p, parent }, registry := registry } := by
  refine h.ofStores rfl rfl
    { h.toStores with records := ?_, record := fun j => ?_, registry := rfl }
  · simpa using h.records
  · rw [Machine.record_push, Machine.record_push, h.records]
    split
    · exact ⟨⟨rfl, .nil, .nil⟩, rfl⟩
    · exact h.record j

theorem removeModule (h : w.Machines m n) (p : ModulePath) :
    w.Machines (m.removeModule p) (n.removeModule p) := by
  refine h.ofStores rfl rfl { h.toStores with registry := ?_ }
  unfold Machine.removeModule
  rw [h.registry]

theorem modifyExports (h : w.Machines m n) (i : ExportsId) {f f' : Exports → Exports}
    (hf : ∀ {e e'}, w.like.Exported e e' → w.like.Exported (f e) (f' e')) :
    w.Machines { m with exports := m.exports.modify i f }
      { n with exports := n.exports.modify i f' } := by
  refine h.ofStores rfl rfl { h.toStores with exports := ?_, exported := fun j => ?_ }
  · simpa using h.exports
  · rw [Machine.exportsOf_modify_eq, Machine.exportsOf_modify_eq, h.exports]
    split
    · exact hf (h.exported j)
    · exact h.exported j

theorem setExport (h : w.Machines m n) (i : ExportsId) (x : Ident) {v v' : Value}
    (hv : w.like.Matches v v') : w.Machines (m.setExport i x v) (n.setExport i x v') :=
  h.modifyExports i fun he => he.set hv

theorem eraseExport (h : w.Machines m n) (i : ExportsId) (x : Ident) :
    w.Machines (m.eraseExport i x) (n.eraseExport i x) :=
  h.modifyExports i fun he => he.erase x

theorem pushExports (h : w.Machines m n) :
    w.Machines { m with exports := m.exports.push [] } { n with exports := n.exports.push [] } := by
  refine h.ofStores rfl rfl { h.toStores with exports := ?_, exported := fun j => ?_ }
  · simpa using h.exports
  · rw [Machine.exportsOf_push, Machine.exportsOf_push, h.exports]
    split
    · exact .nil
    · exact h.exported j

theorem setLoading (h : w.Machines m n) (paths : List Path) :
    w.Machines { m with loading := paths } { n with loading := paths } :=
  h.ofStores rfl rfl { h.toStores with loading := rfl }

theorem setLoaded (h : w.Machines m n) (p : Path) {e e' : Exports} (he : w.like.Exported e e') :
    w.Machines { m with loaded := Machine.setLoaded p e m.loaded }
      { n with loaded := Machine.setLoaded p e' n.loaded } := by
  refine h.ofStores rfl rfl { h.toStores with loaded := fun q => ?_ }
  rw [Machine.loaded?_setLoaded, Machine.loaded?_setLoaded]
  split
  · exact .some he
  · exact h.loaded q

theorem newFunction (h : w.Machines m n) :
    w.Machines { m with functions := m.functions + 1 } { n with functions := n.functions + 1 } :=
  h.ofStores rfl rfl { h.toStores with functions := congrArg (· + 1) h.functions }

theorem setInput (h : w.Machines m n) (t : Text) :
    w.Machines { m with input := t } { n with input := t } :=
  h.ofStores rfl rfl { h.toStores with input := rfl }

theorem write (h : w.Machines m n) (t : Text) : w.Machines (m.write t) (n.write t) :=
  h.ofStores rfl rfl { h.toStores with written := congrArg (t :: ·) h.written }

end Machines

end Layout

end ModuleScript
