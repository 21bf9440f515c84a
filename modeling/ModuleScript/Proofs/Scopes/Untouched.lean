import ModuleScript.Proofs.Conduct.Runs

/-!
# What code that starts afresh leaves alone

Code that starts in a frame made for it, such as a file or the body of a module, writes to nothing
that there was before: to no frame, no module and no table of exports. The one way out is a statement
that gives one more variant to a function found further out.
-/

set_option autoImplicit false

namespace ModuleScript

open Eval

/-- The name was found in a frame made since, or as a member of a module made since. -/
structure Resolution.Since (m₀ : Machine) (r : Resolution) : Prop where
  member : ∀ i, r.owner = some i → m₀.records.size ≤ i
  slot : r.owner = none → m₀.frames.size ≤ r.frame

namespace Machine

/-- If the task gives a function one more variant, it is a function whose name was found in a frame or
module made since. -/
def Inward (m₀ : Machine) (t : Task) (m : Machine) : Prop :=
  ∀ c l n l' ps body r, t = .eval c (.variation l n l' ps body) → m.lookup c.scope n = some r →
    r.Since m₀

theorem inward_of_not_variation {m₀ : Machine} {t : Task} (ht : t.isVariation = false) (m : Machine) :
    m₀.Inward t m := by
  rintro c l n l' ps body r rfl -
  cases ht

/-- All frames, records and tables of exports that there were are as they were, and frames made since
belong to no older module. -/
structure Untouched (m₀ m : Machine) : Prop where
  frames_size : m₀.frames.size ≤ m.frames.size
  records_size : m₀.records.size ≤ m.records.size
  exports_size : m₀.exports.size ≤ m.exports.size
  frame : ∀ i < m₀.frames.size, m.frame i = m₀.frame i
  record : ∀ i < m₀.records.size, m.record i = m₀.record i
  exported : ∀ i < m₀.exports.size, m.exportsOf i = m₀.exportsOf i
  attached : ∀ i r, m₀.frames.size ≤ i → (m.frame i).record = some r → m₀.records.size ≤ r

theorem untouched_refl (m : Machine) : m.Untouched m where
  frames_size := Nat.le_refl _
  records_size := Nat.le_refl _
  exports_size := Nat.le_refl _
  frame _ _ := rfl
  record _ _ := rfl
  exported _ _ := rfl
  attached i r hi hr := by
    have hnone : m.frame i = default := by
      unfold frame
      rw [Array.getElem?_eq_none hi]
      rfl
    rw [hnone] at hr
    cases hr

namespace Untouched

variable {m₀ m m' : Machine}

theorem of_eq (h : m₀.Untouched m) (hf : m'.frames = m.frames) (hr : m'.records = m.records)
    (he : m'.exports = m.exports) : m₀.Untouched m' := by
  have hframe : ∀ i, m'.frame i = m.frame i := fun i => by rw [Machine.frame, hf]; rfl
  have hrecord : ∀ i, m'.record i = m.record i := fun i => by rw [Machine.record, hr]; rfl
  have hexports : ∀ i, m'.exportsOf i = m.exportsOf i := fun i => by
    rw [Machine.exportsOf, he]
    rfl
  refine ⟨hf ▸ h.frames_size, hr ▸ h.records_size, he ▸ h.exports_size, ?_, ?_, ?_, ?_⟩
  · intro i hi
    rw [hframe, h.frame i hi]
  · intro i hi
    rw [hrecord, h.record i hi]
  · intro i hi
    rw [hexports, h.exported i hi]
  · intro i r hi
    rw [hframe]
    exact h.attached i r hi

theorem pushFrame (h : m₀.Untouched m) {f : Frame}
    (hf : ∀ r, f.record = some r → m₀.records.size ≤ r) : m₀.Untouched (m.pushFrame f) := by
  have hle := h.frames_size
  have hsize : (m.pushFrame f).frames.size = m.frames.size + 1 := by simp [Machine.pushFrame]
  refine { h with
    frames_size := by omega
    frame := fun i hi => ?_
    attached := fun i r hi hr => ?_ }
  · rw [frame_pushFrame m f (Nat.lt_of_lt_of_le hi hle), h.frame i hi]
  · rw [frame_push] at hr
    split at hr
    · exact hf r hr
    · exact h.attached i r hi hr

theorem pushRecord (h : m₀.Untouched m) (r : Record) (registry : List (ModulePath × RecordId)) :
    m₀.Untouched { m with records := m.records.push r, registry := registry } := by
  have hle := h.records_size
  refine { h with records_size := ?_, record := fun i hi => ?_ }
  · rw [Array.size_push]
    omega
  · have hne : i ≠ m.records.size := Nat.ne_of_lt (Nat.lt_of_lt_of_le hi hle)
    rw [record_push, if_neg hne, h.record i hi]

theorem pushExports (h : m₀.Untouched m) :
    m₀.Untouched { m with exports := m.exports.push [] } := by
  have hle := h.exports_size
  refine { h with exports_size := ?_, exported := fun i hi => ?_ }
  · rw [Array.size_push]
    omega
  · have hold : ({ m with exports := m.exports.push [] } : Machine).exportsOf i = m.exportsOf i := by
      simp [exportsOf, Array.getElem?_push, Nat.ne_of_lt (Nat.lt_of_lt_of_le hi hle)]
    rw [hold, h.exported i hi]

theorem modifyFrame (h : m₀.Untouched m) {i : FrameId} (hi : m₀.frames.size ≤ i)
    (b : Bindings Slot → Bindings Slot) :
    m₀.Untouched
      { m with frames := m.frames.modify i fun f => { f with bindings := b f.bindings } } := by
  refine { h with
    frames_size := ?_
    frame := fun j hj => ?_
    attached := fun j r hj hr => ?_ }
  · simpa using h.frames_size
  · have hne : i ≠ j := Nat.ne_of_gt (Nat.lt_of_lt_of_le hj hi)
    rw [frame_modify_eq, if_neg fun he => hne he.1, h.frame j hj]
  · rw [frame_modify_eq] at hr
    split at hr
    · exact h.attached j r hj hr
    · exact h.attached j r hj hr

theorem setRecord (h : m₀.Untouched m) {i : RecordId} (hi : m₀.records.size ≤ i) (r : Record) :
    m₀.Untouched (m.setRecord i r) := by
  refine { h with records_size := ?_, record := fun j hj => ?_ }
  · simpa [Machine.setRecord] using h.records_size
  · have hne : i ≠ j := Nat.ne_of_gt (Nat.lt_of_lt_of_le hj hi)
    rw [record_setRecord, if_neg fun he => hne he.1, h.record j hj]

theorem modifyExports (h : m₀.Untouched m) {i : ExportsId} (hi : m₀.exports.size ≤ i)
    (f : Exports → Exports) : m₀.Untouched { m with exports := m.exports.modify i f } := by
  refine { h with exports_size := ?_, exported := fun j hj => ?_ }
  · simpa using h.exports_size
  · have hne : i ≠ j := Nat.ne_of_gt (Nat.lt_of_lt_of_le hj hi)
    rw [exportsOf_modify_eq, if_neg fun he => hne he.1, h.exported j hj]

end Untouched

/-- A place made since. -/
def Newer (m₀ : Machine) : Place → Prop
  | .frame i => m₀.frames.size ≤ i
  | .record i => m₀.records.size ≤ i
  | .exports i | .erasure i => m₀.exports.size ≤ i
  | .module _ => True

theorem Untouched.change {m₀ m m' : Machine} {good : Value → Prop} (h : m₀.Untouched m)
    (hc : m.Change good m₀.Newer m') : m₀.Untouched m' := by
  cases hc with
  | @setSlot i n s hi _ => exact h.modifyFrame hi (·.set n s)
  | @eraseSlot i n hi => exact h.modifyFrame hi (·.erase n)
  | setMember hi _ => exact h.setRecord hi _
  | removeModule _ => exact h.of_eq rfl rfl rfl
  | @setExport i n v hi _ => exact h.modifyExports hi (·.set n v)
  | @eraseExport i n hi => exact h.modifyExports hi (·.erase n)
  | write => exact h.of_eq rfl rfl rfl
  | read => exact h.of_eq rfl rfl rfl

/-- A source whose own frame was made since has a table of exports made since. -/
def Serves (m₀ : Machine) (s : Site) : Prop :=
  m₀.frames.size ≤ s.globals → m₀.exports.size ≤ s.exports

end Machine

namespace Conduct

variable {m₀ : Machine} {h : Host}

/-- Code that runs in frames made since leaves all that there was untouched. -/
def untouched (m₀ : Machine) : Conduct where
  World := Unit
  Later _ _ := True
  later_refl _ := trivial
  later_trans _ _ := trivial
  Fits _ m := m₀.Untouched m
  Good _ _ := True
  Serves _ s := m₀.Serves s
  Code _ c _ := m₀.frames.size ≤ c.scope.frame ∧ m₀.Serves c.site
  Here _ := m₀.Newer
  Varies := False
  good_later _ h := h
  serves_later _ h := h
  code_later _ h := h
  here_later _ h := h
  code_site hc := hc.2
  code_part hc _ := hc
  holds _ := Machine.holds_of_all (Value.carries_of_all fun _ => trivial) _
  writable hm hc :=
    ⟨hc.1, fun i hi => hm.attached _ i hc.1 hi, fun hown => hc.2 (hown ▸ hc.1)⟩
  erasable _ hc hown := hc.2 (hown ▸ hc.1)
  change hm hc := hm.change hc
  enter hm hc _ hf := by
    refine ⟨⟨⟩, trivial, hm.pushFrame fun r hr => ?_, fun _ _ => ⟨hm.frames_size, hc.2⟩⟩
    rw [hf.record] at hr
    cases hr
  call hm _ _ hs hg := by
    refine ⟨⟨⟩, trivial, hm.pushFrame fun r hr => ?_, hm.frames_size, hs⟩
    rw [hg.record] at hr
    cases hr
  lambda hm _ := ⟨⟨⟩, trivial, hm.of_eq rfl rfl rfl, trivial⟩
  vary hv := hv.elim
  register hm _ hr := by
    obtain ⟨-, -, rfl, rfl⟩ := Machine.register_eq_ok hr
    exact ⟨⟨⟩, trivial, hm.pushRecord _ _, hm.records_size, trivial⟩
  enterModule hm hc hi _ _ _ := by
    refine ⟨⟨⟩, trivial, hm.pushFrame fun r hr => ?_, .of_code (fun _ => trivial) (fun _ h => h)
      fun _ _ => ⟨hm.frames_size, hc.2⟩⟩
    cases hr
    exact hi

theorem untouched_files (m₀ : Machine) (h : Host) : (untouched m₀).Files h where
  setLoading _ hm := hm.of_eq rfl rfl rfl
  setLoaded _ _ hm _ := hm.of_eq rfl rfl rfl
  openFile {w m p t program} hm _ _ _ := by
    have hm : m₀.Untouched m := hm
    have hnew := (hm.pushFrame (f := { name := "global " ++ p.name }) fun r hr => by cases hr)
    exact ⟨⟨⟩, trivial, hnew.pushExports, fun _ => hm.exports_size,
      fun _ _ => ⟨hm.frames_size, fun _ => hm.exports_size⟩⟩

/-- What is found in frames or modules made since may be given more variants. -/
theorem untouched_varies (m₀ : Machine) : (untouched m₀).VariesOn m₀.Inward := by
  intro w m c l n l' ps body hm hc hin r f hr _ _
  obtain ⟨-, hl, -⟩ := resolve_eq_ok hr
  have hsince := hin c l n l' ps body r rfl hl
  refine ⟨⟨⟩, trivial, Machine.Untouched.of_eq hm rfl rfl rfl, trivial, hsince.member,
    hsince.slot, fun ho hown => ?_⟩
  exact hc.2 (hown ▸ hsince.slot ho)

theorem untouched_follows (m₀ : Machine) (h : Host) (depth : Nat) :
    (untouched m₀).actions.Follows (checked h m₀.Inward depth) (checked h m₀.Inward depth) :=
  checked_follows (untouched_files m₀ h).imports (untouched_varies m₀) depth

end Conduct

end ModuleScript
