import ModuleScript.Proofs.Afresh.Gap
import ModuleScript.Proofs.Modules.Table
import ModuleScript.Proofs.Simulation.Slots

/-!
# Machines that differ by a gap

One machine is the other with frames, records and functions in a gap that nothing outside of it refers
to, and functions and members made in another order. What is done alike to both, at corresponding
places, leaves them so.
-/

set_option autoImplicit false

namespace ModuleScript

open Eval

/-- The same names bound to slots that correspond. -/
abbrev Gaps.Bindings (g : Gaps) : Bindings Slot → Bindings Slot → Prop :=
  Bindings.Related fun _ => g.like.Slots

structure Frame.Gapped (g : Gaps) (f f' : Frame) : Prop where
  name : f.name = f'.name
  record : f.record = f'.record.map g.records.past
  bindings : g.Bindings f.bindings f'.bindings

/-- Records with the same members, in whatever order. -/
structure Record.Gapped (g : Gaps) (r r' : Record) : Prop where
  path : r.path = r'.path
  members : ∀ vis x, Option.Rel g.like.Slots ((r.members vis).get? x) ((r'.members vis).get? x)

structure Machine.Gapped (g : Gaps) (m n : Machine) : Prop where
  frames : g.frames.Sizes m.frames.size n.frames.size
  records : g.records.Sizes m.records.size n.records.size
  functions : g.functions.Sizes m.functions n.functions
  frame : ∀ i, (m.frame (g.frames.past i)).Gapped g (n.frame i)
  record : ∀ i, (m.record (g.records.past i)).Gapped g (n.record i)
  registered : ∀ p, ¬ g.modules p → m.module? p = (n.module? p).map g.records.past
  exports : g.exports.Sizes m.exports.size n.exports.size
  exported : ∀ i, g.like.Exported (m.exportsOf (g.exports.past i)) (n.exportsOf i)
  loaded : ∀ p, ¬ g.files p → Option.Rel g.like.Exported (m.loaded? p) (n.loaded? p)
  loading : m.loading = n.loading
  input : m.input = n.input
  written : m.written = n.written

/-! ## Records -/

namespace Record.Gapped

variable {g : Gaps} {r r' : Record} (h : r.Gapped g r')

include h

theorem has_eq (vis : Visibility) (x : Ident) : (r.members vis).has x = (r'.members vis).has x := by
  rw [Bindings.has_eq_isSome, Bindings.has_eq_isSome]
  have hx := h.members vis x
  generalize (r.members vis).get? x = s, (r'.members vis).get? x = s' at hx
  cases hx <;> rfl

theorem visibility?_eq (x : Ident) : r.visibility? x = r'.visibility? x := by
  unfold Record.visibility?
  rw [show r.publicMembers.has x = r'.publicMembers.has x from h.has_eq .isPublic x,
    show r.privateMembers.has x = r'.privateMembers.has x from h.has_eq .isPrivate x]

theorem setMember {s s' : Slot} (v : Visibility) (x : Ident) (hs : g.like.Slots s s') :
    (r.setMember v x s).Gapped g (r'.setMember v x s') where
  path := by rw [path_setMember, path_setMember, h.path]
  members vis y := by
    rw [get?_setMember, get?_setMember]
    split
    · exact .some hs
    · exact h.members vis y

theorem define {s s' : Slot} (x : Ident) (hs : g.like.Slots s s') (v : Visibility) :
    (r.define x s v).Gapped g (r'.define x s' v) := by
  unfold Record.define
  rw [h.visibility?_eq]
  exact h.setMember _ x hs

theorem declare (x : Ident) (v : Visibility) :
    ExceptRel (Record.Gapped g) (r.declare x v) (r'.declare x v) :=
  Record.declare_rel h.path (h.visibility?_eq x) h (h.setMember v x .pending)

theorem member? (x : Ident) : Option.Rel g.like.Members (r.member? x) (r'.member? x) := by
  unfold Record.member?
  have hpublic : Option.Rel g.like.Slots (r.publicMembers.get? x) (r'.publicMembers.get? x) :=
    h.members .isPublic x
  generalize r.publicMembers.get? x = s, r'.publicMembers.get? x = s' at hpublic
  cases hpublic with
  | some hs => exact .some ⟨hs, rfl⟩
  | none =>
    have hprivate : Option.Rel g.like.Slots (r.privateMembers.get? x) (r'.privateMembers.get? x) :=
      h.members .isPrivate x
    generalize r.privateMembers.get? x = s, r'.privateMembers.get? x = s' at hprivate
    cases hprivate with
    | some hs => exact .some ⟨hs, rfl⟩
    | none => exact .none

end Record.Gapped

/-! ## Single changes of the store -/

namespace Machine

namespace Gapped

variable {g : Gaps} {m n : Machine} (h : m.Gapped g n)

include h

theorem pushFrame {f f' : Frame} (hf : f.Gapped g f') :
    (m.pushFrame f).Gapped g (n.pushFrame f') := by
  have hframes : g.frames.Sizes (m.pushFrame f).frames.size (n.pushFrame f').frames.size := by
    simpa [Machine.pushFrame] using h.frames.succ
  refine { h with frames := hframes, frame := fun i => ?_ }
  rw [frame_push, frame_push, ← h.frames.past_size]
  simp only [Gap.past_inj]
  split
  · exact hf
  · exact h.frame i

theorem bindings (i : FrameId) {a b : Bindings Slot → Bindings Slot}
    (hb : ∀ {d e}, g.Bindings d e → g.Bindings (a d) (b e)) :
    ({ m with frames := m.frames.modify (g.frames.past i) fun f =>
        { f with bindings := a f.bindings } } : Machine).Gapped g
      { n with frames := n.frames.modify i fun f => { f with bindings := b f.bindings } } := by
  refine { h with frames := by simpa using h.frames, frame := fun j => ?_ }
  rw [frame_modify_eq, frame_modify_eq]
  simp only [Gap.past_inj, h.frames.past_lt_iff]
  have hj := h.frame j
  split
  · exact ⟨hj.name, hj.record, hb hj.bindings⟩
  · exact hj

theorem setSlot (i : FrameId) (x : Ident) {s s' : Slot} (hs : g.like.Slots s s') :
    (m.setSlot (g.frames.past i) x s).Gapped g (n.setSlot i x s') :=
  h.bindings i (a := (·.set x s)) (b := (·.set x s')) fun hd => hd.set hs

theorem eraseSlot (i : FrameId) (x : Ident) :
    (m.eraseSlot (g.frames.past i) x).Gapped g (n.eraseSlot i x) :=
  h.bindings i (a := (·.erase x)) (b := (·.erase x)) fun hd => hd.erase x

theorem setRecord (i : RecordId) {r r' : Record} (hr : r.Gapped g r') :
    (m.setRecord (g.records.past i) r).Gapped g (n.setRecord i r') := by
  refine { h with records := by simpa [Machine.setRecord] using h.records, record := fun j => ?_ }
  rw [record_setRecord, record_setRecord]
  simp only [Gap.past_inj, h.records.past_lt_iff]
  split
  · exact hr
  · exact h.record j

theorem defineMember (i : RecordId) (x : Ident) {s s' : Slot} (hs : g.like.Slots s s')
    (v : Visibility) :
    (m.defineMember (g.records.past i) x s v).Gapped g (n.defineMember i x s' v) :=
  h.setRecord i ((h.record i).define x hs v)

theorem modifyExports (i : ExportsId) {f f' : Exports → Exports}
    (hf : ∀ {e e'}, g.like.Exported e e' → g.like.Exported (f e) (f' e')) :
    ({ m with exports := m.exports.modify (g.exports.past i) f } : Machine).Gapped g
      { n with exports := n.exports.modify i f' } := by
  refine { h with exports := by simpa using h.exports, exported := fun j => ?_ }
  rw [exportsOf_modify_eq, exportsOf_modify_eq]
  simp only [Gap.past_inj, h.exports.past_lt_iff]
  split
  · exact hf (h.exported j)
  · exact h.exported j

theorem setExport (i : ExportsId) (x : Ident) {v v' : Value} (hv : g.like.Matches v v') :
    (m.setExport (g.exports.past i) x v).Gapped g (n.setExport i x v') :=
  h.modifyExports i fun he => he.set hv

theorem eraseExport (i : ExportsId) (x : Ident) :
    (m.eraseExport (g.exports.past i) x).Gapped g (n.eraseExport i x) :=
  h.modifyExports i fun he => he.erase x

theorem pushExports :
    ({ m with exports := m.exports.push [] } : Machine).Gapped g
      { n with exports := n.exports.push [] } := by
  refine { h with exports := by simpa using h.exports.succ, exported := fun j => ?_ }
  rw [exportsOf_push, exportsOf_push, ← h.exports.past_size]
  simp only [Gap.past_inj]
  split
  · exact .nil
  · exact h.exported j

/-! ## Modules and files -/

theorem removeModule (p : ModulePath) : (m.removeModule p).Gapped g (n.removeModule p) := by
  refine { h with registered := fun q hq => ?_ }
  rw [module?_removeModule, module?_removeModule]
  split
  · rfl
  · exact h.registered q hq

theorem pushRecord (p : ModulePath) (parent parent' : Option RecordId)
    (hp : ¬ g.modules p) (hnone : n.module? p = none) :
    ({ m with records := m.records.push { path := p, parent := parent },
              registry := m.registry ++ [(p, m.records.size)] } : Machine).Gapped g
      { n with records := n.records.push { path := p, parent := parent' },
               registry := n.registry ++ [(p, n.records.size)] } := by
  have hnone' : m.module? p = none := by rw [h.registered p hp, hnone]; rfl
  refine { h with
    records := by simpa using h.records.succ
    record := fun i => ?_
    registered := fun q hq => ?_ }
  · rw [record_push, record_push, ← h.records.past_size]
    simp only [Gap.past_inj]
    split
    · exact ⟨rfl, fun vis _ => by cases vis <;> exact .none⟩
    · exact h.record i
  · rw [module?_pushRecord hnone', module?_pushRecord hnone, ← h.records.past_size]
    split
    · rfl
    · exact h.registered q hq

theorem setLoading (paths : List Path) :
    ({ m with loading := paths } : Machine).Gapped g { n with loading := paths } :=
  { h with loading := rfl }

theorem setLoaded (p : Path) {e e' : Exports} (he : g.like.Exported e e') :
    ({ m with loaded := Machine.setLoaded p e m.loaded } : Machine).Gapped g
      { n with loaded := Machine.setLoaded p e' n.loaded } := by
  refine { h with loaded := fun q hq => ?_ }
  rw [loaded?_setLoaded, loaded?_setLoaded]
  split
  · exact .some he
  · exact h.loaded q hq

theorem newFunction :
    ({ m with functions := m.functions + 1 } : Machine).Gapped g
      { n with functions := n.functions + 1 } :=
  { h with functions := h.functions.succ }

theorem setInput (t : Text) : ({ m with input := t } : Machine).Gapped g { n with input := t } :=
  { h with input := rfl }

theorem write (t : Text) : (m.write t).Gapped g (n.write t) :=
  { h with written := congrArg (t :: ·) h.written }

end Gapped

end Machine

end ModuleScript
