import Mathlib.Logic.Relation
import ModuleScript.Proofs.Modules.Table
import ModuleScript.Proofs.Names

/-!
# The changes that evaluation is made of

What evaluation does to what there is on the machine is a sequence of single changes, each at one
place. A condition on what is bound and exported that the values written meet is kept by all of them.
What evaluation adds to the machine, frames and records and functions and files, is left out here.
-/

set_option autoImplicit false

namespace ModuleScript

open Eval

/-- A part of the machine that is written to. -/
inductive Place where
  | frame (id : FrameId)
  | record (id : RecordId)
  | exports (id : ExportsId)
  /-- A table of exports that names are dropped from. -/
  | erasure (id : ExportsId)
  | module (path : ModulePath)

/-- The place where a name was found may be changed. -/
structure Resolution.Writable (here : Place → Prop) (c : Context) (r : Resolution) : Prop where
  member : ∀ i, r.owner = some i → here (.record i)
  slot : r.owner = none → here (.frame r.frame)
  exports : r.owner = none → r.frame = c.site.globals → here (.exports c.site.exports)

namespace Machine

/-- All that is bound or exported is good. -/
structure Holds (good : Value → Prop) (m : Machine) : Prop where
  slot : ∀ {i n v}, (n, .value v) ∈ (m.frame i).bindings → good v
  member : ∀ {i n v} vis, (n, .value v) ∈ ((m.record i).members vis) → good v
  exporting : m.Exporting good

/-- A single change, at a place where changes are made, that writes good values only. -/
inductive Change (good : Value → Prop) (here : Place → Prop) : Machine → Machine → Prop where
  | setSlot {m : Machine} {i : FrameId} {n : Ident} {s : Slot} : here (.frame i) →
      (∀ v, s = .value v → good v) → Change good here m (m.setSlot i n s)
  | eraseSlot {m : Machine} {i : FrameId} {n : Ident} : here (.frame i) →
      Change good here m (m.eraseSlot i n)
  | setMember {m : Machine} {i : RecordId} {n : Ident} {s : Slot} {vis : Visibility} :
      here (.record i) → (∀ v, s = .value v → good v) →
      Change good here m (m.setRecord i ((m.record i).setMember vis n s))
  | removeModule {m : Machine} {p : ModulePath} : here (.module p) →
      Change good here m (m.removeModule p)
  | setExport {m : Machine} {i : ExportsId} {n : Ident} {v : Value} : here (.exports i) → good v →
      Change good here m (m.setExport i n v)
  | eraseExport {m : Machine} {i : ExportsId} {n : Ident} : here (.erasure i) →
      Change good here m (m.eraseExport i n)
  | write {m : Machine} {t : Text} : Change good here m (m.write t)
  | read {m : Machine} {t : Text} : Change good here m { m with input := t }

abbrev Changes (good : Value → Prop) (here : Place → Prop) : Machine → Machine → Prop :=
  Relation.ReflTransGen (Change good here)

variable {good : Value → Prop} {here : Place → Prop} {m m' : Machine}

/-! ## What changes leave alone -/

theorem Change.frames_size (h : Change good here m m') : m'.frames.size = m.frames.size := by
  cases h with
  | setSlot _ _ => simp [Machine.setSlot]
  | eraseSlot _ => simp [Machine.eraseSlot]
  | _ => rfl

theorem Change.exports_size (h : Change good here m m') : m'.exports.size = m.exports.size := by
  cases h with
  | setExport _ _ => simp [Machine.setExport]
  | eraseExport _ => simp [Machine.eraseExport]
  | _ => rfl

theorem Change.records_size (h : Change good here m m') : m'.records.size = m.records.size := by
  cases h with
  | setMember _ _ => simp [Machine.setRecord]
  | _ => rfl

theorem Change.functions (h : Change good here m m') : m'.functions = m.functions := by
  cases h <;> rfl

/-- A frame changes in what it binds only. -/
theorem Change.frame (h : Change good here m m') (i : FrameId) :
    ∃ b, m'.frame i = { m.frame i with bindings := b } := by
  cases h with
  | @setSlot j n s _ _ =>
    rcases frame_modify m j i fun f => { f with bindings := f.bindings.set n s } with he | ⟨-, he⟩
    · exact ⟨_, he⟩
    · exact ⟨_, he⟩
  | @eraseSlot j n _ =>
    rcases frame_modify m j i fun f => { f with bindings := f.bindings.erase n } with he | ⟨-, he⟩
    · exact ⟨_, he⟩
    · exact ⟨_, he⟩
  | _ => exact ⟨_, rfl⟩

theorem Change.attached (h : Change good here m m') (i : FrameId) :
    (m'.frame i).record = (m.frame i).record := by
  obtain ⟨b, he⟩ := h.frame i
  rw [he]

theorem Change.name (h : Change good here m m') (i : FrameId) :
    (m'.frame i).name = (m.frame i).name := by
  obtain ⟨b, he⟩ := h.frame i
  rw [he]

theorem Change.path (h : Change good here m m') (i : RecordId) :
    (m'.record i).path = (m.record i).path := by
  cases h with
  | @setMember j n s vis _ _ =>
    rw [record_setRecord]
    split
    · rename_i hj
      rw [Record.path_setMember, hj.1]
    · rfl
  | _ => rfl

theorem Change.loaded (h : Change good here m m') : m'.loaded = m.loaded := by
  cases h <;> rfl

theorem Change.loading (h : Change good here m m') : m'.loading = m.loading := by
  cases h <;> rfl

section Changes

variable (h : Changes good here m m')

include h

theorem Changes.frames_size : m'.frames.size = m.frames.size := by
  induction h with
  | refl => rfl
  | tail _ hc ih => rw [hc.frames_size, ih]

theorem Changes.records_size : m'.records.size = m.records.size := by
  induction h with
  | refl => rfl
  | tail _ hc ih => rw [hc.records_size, ih]

theorem Changes.exports_size : m'.exports.size = m.exports.size := by
  induction h with
  | refl => rfl
  | tail _ hc ih => rw [hc.exports_size, ih]

theorem Changes.attached (i : FrameId) : (m'.frame i).record = (m.frame i).record := by
  induction h with
  | refl => rfl
  | tail _ hc ih => rw [hc.attached i, ih]

theorem Changes.path (i : RecordId) : (m'.record i).path = (m.record i).path := by
  induction h with
  | refl => rfl
  | tail _ hc ih => rw [hc.path i, ih]

end Changes

/-! ## What is bound stays good -/

theorem Holds.mono {good' : Value → Prop} (h : m.Holds good) (hg : ∀ v, good v → good' v) :
    m.Holds good' where
  slot hv := hg _ (h.slot hv)
  member vis hv := hg _ (h.member vis hv)
  exporting := ⟨fun hv => hg _ (h.exporting.exports hv), fun hp hv => hg _ (h.exporting.loaded hp hv)⟩

theorem Holds.and {good' : Value → Prop} (h : m.Holds good) (h' : m.Holds good') :
    m.Holds fun v => good v ∧ good' v where
  slot hv := ⟨h.slot hv, h'.slot hv⟩
  member vis hv := ⟨h.member vis hv, h'.member vis hv⟩
  exporting := ⟨fun hv => ⟨h.exporting.exports hv, h'.exporting.exports hv⟩,
    fun hp hv => ⟨h.exporting.loaded hp hv, h'.exporting.loaded hp hv⟩⟩

theorem holds_of_all (h : ∀ v, good v) (m : Machine) : m.Holds good :=
  ⟨fun _ => h _, fun _ _ => h _, fun _ => h _, fun _ _ => h _⟩

theorem Change.mono {good' : Value → Prop} {here' : Place → Prop} (h : Change good here m m')
    (hg : ∀ v, good v → good' v) (hh : ∀ p, here p → here' p) : Change good' here' m m' := by
  cases h with
  | setSlot hi hs => exact .setSlot (hh _ hi) fun v hv => hg v (hs v hv)
  | eraseSlot hi => exact .eraseSlot (hh _ hi)
  | setMember hi hs => exact .setMember (hh _ hi) fun v hv => hg v (hs v hv)
  | removeModule hp => exact .removeModule (hh _ hp)
  | setExport hi hv => exact .setExport (hh _ hi) (hg _ hv)
  | eraseExport hi => exact .eraseExport (hh _ hi)
  | write => exact .write
  | read => exact .read

theorem Holds.of_frames (h : m.Holds good) (hrecords : m'.records = m.records)
    (hexporting : m'.Exporting good)
    (hslot : ∀ {i n v}, (n, .value v) ∈ (m'.frame i).bindings → good v) : m'.Holds good where
  slot := hslot
  member {i n v} vis hv := by
    unfold record at hv
    rw [hrecords] at hv
    exact h.member vis hv
  exporting := hexporting

theorem Holds.of_exporting (h : m.Holds good) (hframes : m'.frames = m.frames)
    (hrecords : m'.records = m.records) (hexporting : m'.Exporting good) : m'.Holds good :=
  h.of_frames hrecords hexporting fun {i n v} hv => by
    unfold frame at hv
    rw [hframes] at hv
    exact h.slot hv

theorem Holds.bindings (h : m.Holds good) (i : FrameId) {b : Bindings Slot → Bindings Slot}
    (hb : ∀ {n v}, (n, Slot.value v) ∈ b (m.frame i).bindings → good v) :
    ({ m with frames := m.frames.modify i fun f => { f with bindings := b f.bindings } } :
      Machine).Holds good := by
  refine h.of_frames rfl (h.exporting.of_eq rfl rfl) fun {j n v} hv => ?_
  rcases frame_modify m i j fun f => { f with bindings := b f.bindings } with he | ⟨rfl, he⟩
  · rw [he] at hv
    exact h.slot hv
  · rw [he] at hv
    exact hb hv

theorem Holds.pushFrame (h : m.Holds good) {f : Frame}
    (hf : ∀ {n v}, (n, .value v) ∈ f.bindings → good v) : (m.pushFrame f).Holds good := by
  refine h.of_frames rfl (h.exporting.of_eq rfl rfl) fun {j n v} hv => ?_
  unfold Machine.pushFrame Machine.frame at hv
  rw [Array.getElem?_push] at hv
  split at hv
  · exact hf hv
  · exact h.slot hv

theorem Holds.setRecord (h : m.Holds good) {i : RecordId} {r : Record}
    (hr : ∀ {n v} vis, (n, .value v) ∈ r.members vis → good v) : (m.setRecord i r).Holds good where
  slot := h.slot
  member {j n v} vis hv := by
    rw [record_setRecord] at hv
    split at hv
    · exact hr vis hv
    · exact h.member vis hv
  exporting := h.exporting.of_eq rfl rfl

theorem Holds.pushRecord (h : m.Holds good) {r : Record} (hr : ∀ vis, r.members vis = [])
    (registry : List (ModulePath × RecordId)) :
    ({ m with records := m.records.push r, registry := registry } : Machine).Holds good where
  slot := h.slot
  member {j n v} vis hv := by
    unfold record at hv
    rw [Array.getElem?_push] at hv
    split at hv
    · rw [Option.getD_some, hr vis] at hv
      cases hv
    · exact h.member vis hv
  exporting := h.exporting.of_eq rfl rfl

theorem Holds.pushExports (h : m.Holds good) :
    ({ m with exports := m.exports.push [] } : Machine).Holds good :=
  h.of_exporting rfl rfl h.exporting.pushExports

theorem Change.holds (h : Change good here m m') (hm : m.Holds good) : m'.Holds good := by
  cases h with
  | @setSlot i n s _ hs =>
    refine hm.bindings i (b := (·.set n s)) fun hv => ?_
    rcases Bindings.mem_set hv with hv | ⟨-, hv⟩
    · exact hm.slot hv
    · exact hs _ hv.symm
  | @eraseSlot i n _ =>
    exact hm.bindings i (b := (·.erase n)) fun hv => hm.slot (Bindings.mem_of_mem_erase hv)
  | setMember _ hs =>
    refine hm.setRecord fun vis hv => ?_
    rcases Record.mem_setMember hv with hv | hv
    · exact hm.member vis hv
    · exact hs _ hv.symm
  | removeModule _ => exact hm.of_exporting rfl rfl (hm.exporting.of_eq rfl rfl)
  | setExport _ hv => exact hm.of_exporting rfl rfl (hm.exporting.setExport _ _ hv)
  | eraseExport _ => exact hm.of_exporting rfl rfl (hm.exporting.eraseExport _ _)
  | write => exact hm.of_exporting rfl rfl (hm.exporting.of_eq rfl rfl)
  | read => exact hm.of_exporting rfl rfl (hm.exporting.of_eq rfl rfl)

/-! ## What names stand for is good -/

theorem Holds.member? (h : m.Holds good) {i : RecordId} {n : Ident} {v : Value} {vis : Visibility}
    (hv : (m.record i).member? n = some (.value v, vis)) : good v := by
  unfold Record.member? at hv
  cases hp : (m.record i).publicMembers.get? n with
  | some s =>
    rw [hp] at hv
    cases hv
    exact h.member .isPublic (Bindings.mem_of_get? hp)
  | none =>
    rw [hp] at hv
    obtain ⟨s, hs, he⟩ := Option.map_eq_some_iff.mp hv
    cases he
    exact h.member .isPrivate (Bindings.mem_of_get? hs)

theorem Holds.resolve (h : m.Holds good) {c : Context} {n : Ident} {r : Resolution} {v : Value}
    (hr : Eval.resolve c n m = .ok (r, v) m') : good v := by
  obtain ⟨-, hl, hs, -⟩ := resolve_eq_ok hr
  obtain ⟨-, hin⟩ := lookup_eq_some hl
  rcases (lookupIn_eq_some hin).2 with ⟨i, -, -, hi⟩ | ⟨-, -, hb⟩
  · rw [hs] at hi
    exact h.member? hi
  · rw [hs] at hb
    exact h.slot (Bindings.mem_of_get? hb)

theorem Holds.follow (h : m.Holds good) {c : Context} {walked : Text} {v u : Value}
    {names : List Ident} (hv : good v) (hu : Eval.follow c walked v names m = .ok u m') :
    good u := by
  induction names generalizing walked v with
  | nil =>
    cases hu
    exact hv
  | cons n rest ih =>
    cases v with
    | module i path =>
      cases hmember : (m.record i).member? n with
      | none =>
        rw [follow_of_none walked path rest hmember] at hu
        cases hu
      | some p =>
        obtain ⟨s, vis⟩ := p
        rw [follow_of_some walked path rest hmember] at hu
        rcases readSlot_cases c.module (some path) vis n s with ⟨w, hw, hs, -⟩ | ⟨e, he⟩
        · rw [hw] at hu
          rw [hs] at hmember
          exact ih (h.member? hmember) hu
        · rw [he] at hu
          cases hu
    | _ => cases hu

theorem Holds.dotted (h : m.Holds good) (hunit : good .unit) {c : Context} {names : List Ident}
    {v : Value} (hv : Eval.dotted c names m = .ok v m') : good v := by
  cases names with
  | nil =>
    cases hv
    exact hunit
  | cons n rest =>
    have he : Eval.dotted c (n :: rest) m = (Eval.resolve c n >>= fun r =>
      Eval.follow c n r.2 rest) m := rfl
    rw [he] at hv
    rcases reads_resolve c n m with ⟨r, hr⟩ | ⟨e, hr⟩
    · rw [bind_of_ok hr] at hv
      exact h.follow (h.resolve hr) hv
    · rw [bind_of_error hr] at hv
      cases hv

/-! ## Actions as sequences of changes -/

/-- The frame that code runs in, the record attached to it and, if the frame is that of the source,
the exports may be changed. -/
structure Writable (here : Place → Prop) (m : Machine) (c : Context) : Prop where
  frame : here (.frame c.scope.frame)
  record : ∀ i, (m.frame c.scope.frame).record = some i → here (.record i)
  exports : c.scope.frame = c.site.globals → here (.exports c.site.exports)

variable {c : Context} {n : Ident}

theorem good_slot {v : Value} (hv : good v) : ∀ u, Slot.value v = .value u → good u := by
  rintro _ ⟨⟩
  exact hv

theorem define_changes (hw : m.Writable here c) (n : Ident) {v : Value} (hv : good v)
    (isPublic : Bool) :
    ∃ m', define c n v isPublic m = .ok ⟨⟩ m' ∧ Changes good here m m' := by
  refine ⟨_, rfl, ?_⟩
  dsimp only
  cases hr : (m.frame c.scope.frame).record with
  | some i => exact .single (.setMember (hw.record i hr) (good_slot hv))
  | none =>
    have hset : Change good here m (m.setSlot c.scope.frame n (.value v)) :=
      .setSlot hw.frame (good_slot hv)
    dsimp only
    split
    · rename_i h
      exact .tail (.single hset) (.setExport (hw.exports h.2) hv)
    · exact .single hset

theorem restore_changes (hw : m.Writable here c)
    (he : c.scope.frame = c.site.globals → here (.erasure c.site.exports)) {old : Previous}
    (hslot : ∀ v, old.slot = some (.value v) → good v)
    (hexported : ∀ v, old.exported = some v → good v) :
    Changes good here m (restore c n old m) := by
  have herase : ∀ {k}, Changes good here m k → Changes good here m
      (if c.scope.frame = c.site.globals then k.eraseExport c.site.exports n else k) := by
    intro k hk
    split
    · rename_i h
      exact hk.tail (.eraseExport (he h))
    · exact hk
  have hset : ∀ {k v}, good v → Changes good here m k → Changes good here m
      (if c.scope.frame = c.site.globals then k.setExport c.site.exports n v else k) := by
    intro k v hv hk
    split
    · rename_i h
      exact hk.tail (.setExport (hw.exports h) hv)
    · exact hk
  unfold restore
  cases hr : (m.frame c.scope.frame).record with
  | some i => exact .single (.setMember (hw.record i hr) fun _ h => by cases h)
  | none =>
    dsimp only
    cases ho : old.slot with
    | none =>
      have hk : Changes good here m (m.eraseSlot c.scope.frame n) := .single (.eraseSlot hw.frame)
      cases hx : old.exported with
      | none => exact herase hk
      | some v => exact hset (hexported v hx) hk
    | some s =>
      have hk : Changes good here m (m.setSlot c.scope.frame n s) :=
        .single (.setSlot hw.frame fun v hs => hslot v (hs ▸ ho))
      cases hx : old.exported with
      | none => exact herase hk
      | some v => exact hset (hexported v hx) hk

theorem previous_good (h : m.Holds good) (c : Context) (n : Ident) :
    (∀ v, (previous c n m).slot = some (.value v) → good v) ∧
      ∀ v, (previous c n m).exported = some v → good v :=
  ⟨fun _ hv => h.slot (Bindings.mem_of_get? hv),
    fun _ hv => h.exporting.exports (Bindings.mem_of_get? hv)⟩

theorem replace_changes {r : Resolution} (hw : Resolution.Writable here c r) (n : Ident) {v : Value}
    (hv : good v) : ∃ m', replace c r n v m = .ok ⟨⟩ m' ∧ Changes good here m m' := by
  refine ⟨_, rfl, ?_⟩
  dsimp only
  cases ho : r.owner with
  | some i => exact .single (.setMember (hw.member i ho) (good_slot hv))
  | none =>
    have hset : Change good here m (m.setSlot r.frame n (.value v)) :=
      .setSlot (hw.slot ho) (good_slot hv)
    dsimp only
    split
    · rename_i h
      exact .tail (.single hset) (.setExport (hw.exports ho h.1) hv)
    · exact .single hset

theorem setRecord_record (m : Machine) (i : RecordId) : m.setRecord i (m.record i) = m := by
  have hrecords : m.records.modify i (fun _ => m.record i) = m.records := by
    refine Array.ext (by simp) fun j hj hj' => ?_
    rw [Array.getElem_modify]
    split
    · rename_i hij
      subst hij
      simp [record, hj']
    · rfl
  unfold setRecord
  rw [hrecords]

theorem declare_changes {i : RecordId} (hi : here (.record i)) {vis : Visibility} {r : Record}
    (hr : (m.record i).declare n vis = .ok r) : Changes good here m (m.setRecord i r) := by
  rcases Record.declare_eq_ok hr with rfl | ⟨-, rfl⟩
  · rw [setRecord_record]
  · exact .single (.setMember hi fun _ h => by cases h)

end Machine

end ModuleScript
