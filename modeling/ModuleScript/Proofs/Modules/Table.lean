import Mathlib.Data.List.Nodup
import ModuleScript.Eval.Modules
import ModuleScript.Proofs.Invariant.Actions

/-!
# The table of modules

What the registry, the records and the frames of a machine have to do with each other, and what of
it lasts while code runs. A module that is dropped again takes the modules below it along, which
were not there before it.
-/

set_option autoImplicit false

namespace ModuleScript

open Eval

namespace ModulePath

/-- The path of the module that this one is declared in, if it has more than one name. -/
def parent? (p : ModulePath) : Option ModulePath :=
  if p.names.length ≤ 1 then none else some ⟨p.source, p.names.dropLast⟩

variable {p q r : ModulePath}

theorem parent?_child (h : p.names ≠ []) (n : Ident) : (p.child n).parent? = some p := by
  simp [parent?, child, h]

theorem within_iff : p.within q = true ↔ q.source = p.source ∧ p.names <+: q.names := by
  simp [within]

/-- What lies below a path is the path itself, or its parent lies there too. -/
theorem within_cases (hp : p.names ≠ []) (h : p.within q = true) :
    q = p ∨ ∃ r, q.parent? = some r ∧ p.within r = true ∧ r.names.length < q.names.length := by
  obtain ⟨hsource, rest, hrest⟩ := within_iff.mp h
  rcases List.eq_nil_or_concat rest with rfl | ⟨rest, n, rfl⟩
  · refine .inl ?_
    rw [List.append_nil] at hrest
    cases p
    cases q
    simp_all
  · have hq : q = child ⟨q.source, p.names ++ rest⟩ n := by
      cases q
      simp_all [child]
    have hne : p.names ++ rest ≠ [] := by simp [hp]
    refine .inr ⟨⟨q.source, p.names ++ rest⟩, ?_, ?_, ?_⟩
    · rw [hq]
      exact parent?_child hne n
    · exact within_iff.mpr ⟨hsource, List.prefix_append _ _⟩
    · rw [← hrest]
      simp

theorem within_of_parent? (hq : q.parent? = some r) (h : p.within r = true) :
    p.within q = true := by
  unfold parent? at hq
  split at hq
  · cases hq
  · cases hq
    obtain ⟨hsource, hprefix⟩ := within_iff.mp h
    exact within_iff.mpr ⟨hsource, hprefix.trans (List.dropLast_prefix _)⟩

end ModulePath

/-! ## Tiers -/

namespace Record

/-- No name is both public and private. -/
def Tiered (r : Record) : Prop :=
  ∀ n, ¬ (r.publicMembers.has n = true ∧ r.privateMembers.has n = true)

/-- Names that are in a tier are in the same tier of the other record. -/
def TiersKept (r r' : Record) : Prop :=
  ∀ vis n, (r.members vis).has n = true → (r'.members vis).has n = true

variable {r r' : Record} {n : Ident} {s : Slot} {vis : Visibility}

theorem tiersKept_setMember (r : Record) (vis : Visibility) (n : Ident) (s : Slot) :
    r.TiersKept (r.setMember vis n s) := by
  intro vis' x hx
  cases vis <;> cases vis' <;> simp_all [setMember, members, Bindings.has_set]

theorem tiered_setMember (h : r.Tiered) (hn : ∀ w, r.visibility? n = some w → w = vis) :
    (r.setMember vis n s).Tiered := by
  intro x
  have hx := h x
  by_cases he : n = x
  · subst he
    have hpublic := hn .isPublic
    have hprivate := hn .isPrivate
    unfold visibility? at hpublic hprivate
    cases hp : r.publicMembers.has n <;> cases hq : r.privateMembers.has n <;> cases vis <;>
      simp_all [setMember, Bindings.has_set]
  · cases vis <;> simpa [setMember, Bindings.has_set, he] using hx

theorem tiered_define (h : r.Tiered) (n : Ident) (s : Slot) (vis : Visibility) :
    (r.define n s vis).Tiered := by
  refine tiered_setMember h fun w hw => ?_
  rw [hw]
  rfl

theorem declare_eq_ok (h : r.declare n vis = .ok r') :
    r' = r ∨ r.visibility? n = none ∧ r' = r.setMember vis n .pending := by
  unfold declare at h
  split at h
  · rename_i hnone
    cases h
    exact .inr ⟨hnone, rfl⟩
  · split at h
    · cases h
      exact .inl rfl
    · cases h

end Record

/-! ## The table -/

namespace Machine

/-- Modules are registered under their own paths together with the modules around them; a name is in
one tier of a module at most; and a frame that belongs to a module binds nothing itself. -/
structure WellFormed (m : Machine) : Prop where
  distinct : (m.registry.map Prod.fst).Nodup
  named : ∀ {p i}, (p, i) ∈ m.registry → p.names ≠ []
  stored : ∀ {p i}, (p, i) ∈ m.registry → i < m.records.size ∧ (m.record i).path = p
  inner : ∀ {p i q}, (p, i) ∈ m.registry → p.parent? = some q →
    ∃ j, (q, j) ∈ m.registry ∧ (m.record i).parent = some j
  outermost : ∀ {p i}, (p, i) ∈ m.registry → p.parent? = none → (m.record i).parent = none
  tiered : ∀ i, (m.record i).Tiered
  attached : ∀ {f i}, (m.frame f).record = some i → (m.frame f).bindings = []

/-- Frames stay attached, records keep paths, parents and the tiers of their names, and what is
registered stays so. -/
structure Retains (m m' : Machine) : Prop where
  frames : m.frames.size ≤ m'.frames.size
  records : m.records.size ≤ m'.records.size
  attached : ∀ f < m.frames.size, (m'.frame f).record = (m.frame f).record
  path : ∀ i < m.records.size, (m'.record i).path = (m.record i).path
  parent : ∀ i < m.records.size, (m'.record i).parent = (m.record i).parent
  tiers : ∀ i, (m.record i).TiersKept (m'.record i)
  registered : ∀ {p i}, (p, i) ∈ m.registry → (p, i) ∈ m'.registry

/-- A frame outside all modules, or one of a module that is registered. -/
structure Hosts (m : Machine) (f : FrameId) : Prop where
  frame : f < m.frames.size
  registered : ∀ i, (m.frame f).record = some i →
    i < m.records.size ∧ ((m.record i).path, i) ∈ m.registry

variable {m m' k : Machine} {f : FrameId} {i j : RecordId} {p q : ModulePath} {n : Ident}

theorem retains_refl (m : Machine) : m.Retains m where
  frames := Nat.le_refl _
  records := Nat.le_refl _
  attached _ _ := rfl
  path _ _ := rfl
  parent _ _ := rfl
  tiers _ _ _ h := h
  registered h := h

theorem Retains.trans (h : m.Retains m') (h' : m'.Retains k) : m.Retains k where
  frames := Nat.le_trans h.frames h'.frames
  records := Nat.le_trans h.records h'.records
  attached f hf := by
    rw [h'.attached f (Nat.lt_of_lt_of_le hf h.frames), h.attached f hf]
  path i hi := by
    rw [h'.path i (Nat.lt_of_lt_of_le hi h.records), h.path i hi]
  parent i hi := by
    rw [h'.parent i (Nat.lt_of_lt_of_le hi h.records), h.parent i hi]
  tiers i vis n hn := h'.tiers i vis n (h.tiers i vis n hn)
  registered hp := h'.registered (h.registered hp)

theorem Hosts.later (h : m.Hosts f) (hl : m.Retains m') : m'.Hosts f := by
  refine ⟨Nat.lt_of_lt_of_le h.frame hl.frames, fun i hi => ?_⟩
  rw [hl.attached f h.frame] at hi
  obtain ⟨hsize, hp⟩ := h.registered i hi
  refine ⟨Nat.lt_of_lt_of_le hsize hl.records, ?_⟩
  rw [hl.path i hsize]
  exact hl.registered hp

/-! ## Changes of frames -/

/-- Frames that are as they were but for their bindings, and those only outside modules. -/
theorem WellFormed.of_frames (h : m.WellFormed) (hrecords : m'.records = m.records)
    (hregistry : m'.registry = m.registry)
    (hframe : ∀ {f i}, (m'.frame f).record = some i → (m'.frame f).bindings = []) :
    m'.WellFormed := by
  have hrecord : ∀ i, m'.record i = m.record i := fun i => by rw [record, hrecords]; rfl
  constructor
  · rw [hregistry]
    exact h.distinct
  · intro p i hp
    rw [hregistry] at hp
    exact h.named hp
  · intro p i hp
    rw [hregistry] at hp
    rw [hrecords, hrecord]
    exact h.stored hp
  · intro p i q hp hq
    rw [hregistry] at hp ⊢
    rw [hrecord]
    exact h.inner hp hq
  · intro p i hp hq
    rw [hregistry] at hp
    rw [hrecord]
    exact h.outermost hp hq
  · intro i
    rw [hrecord]
    exact h.tiered i
  · exact hframe

theorem retains_of_frames (hrecords : m'.records = m.records) (hregistry : m'.registry = m.registry)
    (hsize : m.frames.size ≤ m'.frames.size)
    (hframe : ∀ f < m.frames.size, (m'.frame f).record = (m.frame f).record) : m.Retains m' := by
  have hrecord : ∀ i, m'.record i = m.record i := fun i => by rw [record, hrecords]; rfl
  refine ⟨hsize, Nat.le_of_eq (by rw [hrecords]), hframe, ?_, ?_, ?_, ?_⟩
  · intro i _
    rw [hrecord]
  · intro i _
    rw [hrecord]
  · intro i vis n hn
    rw [hrecord]
    exact hn
  · intro p i hp
    rw [hregistry]
    exact hp

theorem WellFormed.pushFrame (h : m.WellFormed) {g : Frame}
    (hg : ∀ i, g.record = some i → g.bindings = []) : (m.pushFrame g).WellFormed := by
  refine h.of_frames rfl rfl fun {f i} hi => ?_
  unfold Machine.pushFrame Machine.frame at hi ⊢
  rw [Array.getElem?_push] at hi ⊢
  by_cases hf : f = m.frames.size
  · rw [if_pos hf] at hi ⊢
    exact hg i hi
  · rw [if_neg hf] at hi ⊢
    exact h.attached hi

theorem retains_pushFrame (m : Machine) (g : Frame) : m.Retains (m.pushFrame g) := by
  refine retains_of_frames rfl rfl ?_ fun f hf => ?_
  · simp [Machine.pushFrame]
  · rw [frame_pushFrame m g hf]

theorem hosts_pushFrame {g : Frame} (hg : g.record = none) :
    (m.pushFrame g).Hosts m.frames.size := by
  constructor
  · simp [Machine.pushFrame]
  · intro i hi
    rw [frame_pushFrame_size, hg] at hi
    cases hi

/-- The bindings of a frame change if it has any or belongs to no module. -/
theorem WellFormed.bindings (h : m.WellFormed) {b : Bindings Slot → Bindings Slot}
    (hf : (m.frame f).record = none ∨ (m.frame f).bindings ≠ []) :
    ({ m with frames := m.frames.modify f fun g => { g with bindings := b g.bindings } } :
      Machine).WellFormed := by
  refine h.of_frames rfl rfl fun {f' i} hi => ?_
  rcases frame_modify m f f' fun g => { g with bindings := b g.bindings } with he | ⟨rfl, he⟩
  · rw [he] at hi ⊢
    exact h.attached hi
  · rw [he] at hi
    rcases hf with hf | hf
    · cases hi.symm.trans hf
    · exact absurd (h.attached hi) hf

theorem retains_bindings (m : Machine) (f : FrameId) (b : Bindings Slot → Bindings Slot) :
    m.Retains { m with frames := m.frames.modify f fun g => { g with bindings := b g.bindings } } := by
  refine retains_of_frames rfl rfl ?_ fun f' _ => ?_
  · simp
  · rcases frame_modify m f f' fun g => { g with bindings := b g.bindings } with he | ⟨rfl, he⟩
    · rw [he]
    · rw [he]

/-! ## Changes of records -/

/-- Another record with the same path and parent takes the place of one. -/
theorem WellFormed.setRecord (h : m.WellFormed) {r : Record} (hpath : r.path = (m.record i).path)
    (hparent : r.parent = (m.record i).parent) (hr : r.Tiered) : (m.setRecord i r).WellFormed := by
  have hsize : (m.setRecord i r).records.size = m.records.size := by simp [Machine.setRecord]
  have hrecord : ∀ j, ((m.setRecord i r).record j).path = (m.record j).path ∧
      ((m.setRecord i r).record j).parent = (m.record j).parent ∧
      ((m.setRecord i r).record j).Tiered := by
    intro j
    rw [record_setRecord]
    split
    · rename_i hij
      obtain ⟨rfl, -⟩ := hij
      exact ⟨hpath, hparent, hr⟩
    · exact ⟨rfl, rfl, h.tiered j⟩
  refine ⟨h.distinct, h.named, ?_, ?_, ?_, fun j => (hrecord j).2.2, h.attached⟩
  · intro p j hp
    rw [hsize, (hrecord j).1]
    exact h.stored hp
  · intro p j q hp hq
    rw [(hrecord j).2.1]
    exact h.inner hp hq
  · intro p j hp hq
    rw [(hrecord j).2.1]
    exact h.outermost hp hq

theorem retains_setRecord {r : Record} (hpath : r.path = (m.record i).path)
    (hparent : r.parent = (m.record i).parent) (hr : (m.record i).TiersKept r) :
    m.Retains (m.setRecord i r) := by
  have hrecord : ∀ j, ((m.setRecord i r).record j).path = (m.record j).path ∧
      ((m.setRecord i r).record j).parent = (m.record j).parent ∧
      (m.record j).TiersKept ((m.setRecord i r).record j) := by
    intro j
    rw [record_setRecord]
    split
    · rename_i hij
      obtain ⟨rfl, -⟩ := hij
      exact ⟨hpath, hparent, hr⟩
    · exact ⟨rfl, rfl, fun _ _ hn => hn⟩
  refine ⟨Nat.le_refl _, ?_, fun _ _ => rfl, fun j _ => (hrecord j).1, fun j _ => (hrecord j).2.1,
    fun j => (hrecord j).2.2, fun hp => hp⟩
  simp [Machine.setRecord]

theorem parent_setMember (r : Record) (vis : Visibility) (n : Ident) (s : Slot) :
    (r.setMember vis n s).parent = r.parent := by
  cases vis <;> rfl

theorem WellFormed.defineMember (h : m.WellFormed) (i : RecordId) (n : Ident) (s : Slot)
    (vis : Visibility) : (m.defineMember i n s vis).WellFormed :=
  h.setRecord (Record.path_setMember _ _ _ _) (parent_setMember _ _ _ _)
    (Record.tiered_define (h.tiered i) n s vis)

theorem retains_defineMember (m : Machine) (i : RecordId) (n : Ident) (s : Slot)
    (vis : Visibility) : m.Retains (m.defineMember i n s vis) :=
  retains_setRecord (Record.path_setMember _ _ _ _) (parent_setMember _ _ _ _)
    (Record.tiersKept_setMember _ _ n s)

theorem WellFormed.declare (h : m.WellFormed) {vis : Visibility} {r : Record}
    (hr : (m.record i).declare n vis = .ok r) :
    (m.setRecord i r).WellFormed ∧ m.Retains (m.setRecord i r) := by
  rcases Record.declare_eq_ok hr with rfl | ⟨hnone, rfl⟩
  · exact ⟨h.setRecord rfl rfl (h.tiered i), retains_setRecord rfl rfl fun _ _ hn => hn⟩
  · refine ⟨h.setRecord ?_ ?_ (Record.tiered_setMember (h.tiered i) fun w hw => ?_),
      retains_setRecord ?_ ?_ (Record.tiersKept_setMember _ vis n .pending)⟩
    · exact Record.path_setMember _ _ _ _
    · exact parent_setMember _ _ _ _
    · rw [hnone] at hw
      cases hw
    · exact Record.path_setMember _ _ _ _
    · exact parent_setMember _ _ _ _

/-! ## Registering and dropping modules -/

theorem notMem_registry_of_module? (h : m.module? p = none) (i : RecordId) :
    (p, i) ∉ m.registry := by
  intro hp
  have hnone := List.find?_eq_none.mp (Option.map_eq_none_iff.mp h) _ hp
  simp at hnone

theorem module?_eq_none (h : ∀ i, (p, i) ∉ m.registry) : m.module? p = none := by
  unfold module?
  rw [Option.map_eq_none_iff, List.find?_eq_none]
  rintro ⟨q, i⟩ hq hp
  obtain rfl : q = p := by simpa using hp
  exact h i hq

theorem mem_registry_of_module? (h : m.module? p = some i) : (p, i) ∈ m.registry := by
  obtain ⟨⟨q, j⟩, hfind, rfl⟩ := Option.map_eq_some_iff.mp h
  have hq : q = p := by simpa using List.find?_some hfind
  rw [← hq]
  exact List.mem_of_find?_eq_some hfind

/-- There is one module of a path at most. -/
theorem WellFormed.module?_eq (h : m.WellFormed) (hp : (p, i) ∈ m.registry) :
    m.module? p = some i := by
  cases hj : m.module? p with
  | none => exact absurd hp (notMem_registry_of_module? hj i)
  | some j =>
    have heq := List.inj_on_of_nodup_map h.distinct hp (mem_registry_of_module? hj) rfl
    rw [(Prod.mk.inj heq).2]

/-- With a module that is registered, all modules around it are. -/
theorem WellFormed.above (h : m.WellFormed) (hp : (p, i) ∈ m.registry) (hq : q.names ≠ [])
    (hw : q.within p = true) : ∃ j, (q, j) ∈ m.registry := by
  generalize hlen : p.names.length = len
  induction len using Nat.strongRecOn generalizing p i with
  | ind len ih =>
    rcases ModulePath.within_cases hq hw with rfl | ⟨r, hr, hwr, hlt⟩
    · exact ⟨i, hp⟩
    · obtain ⟨j, hj, -⟩ := h.inner hp hr
      exact ih r.names.length (hlen ▸ hlt) hj hwr rfl

theorem WellFormed.removeModule (h : m.WellFormed) (p : ModulePath) :
    (m.removeModule p).WellFormed := by
  have hmem : ∀ {q i}, (q, i) ∈ (m.removeModule p).registry ↔
      (q, i) ∈ m.registry ∧ p.within q = false := by
    intro q i
    simp [Machine.removeModule]
  refine ⟨?_, ?_, ?_, ?_, ?_, h.tiered, h.attached⟩
  · exact h.distinct.sublist (List.filter_sublist.map _)
  · intro q i hq
    exact h.named (hmem.mp hq).1
  · intro q i hq
    exact h.stored (hmem.mp hq).1
  · intro q i r hq hr
    obtain ⟨hold, hout⟩ := hmem.mp hq
    obtain ⟨j, hj, hparent⟩ := h.inner hold hr
    refine ⟨j, hmem.mpr ⟨hj, ?_⟩, hparent⟩
    cases hw : p.within r with
    | false => rfl
    | true => rw [← hout, ModulePath.within_of_parent? hr hw]
  · intro q i hq hr
    exact h.outermost (hmem.mp hq).1 hr

/-- To drop a module that was not there keeps all that was. -/
theorem Retains.removeModule (h : m.Retains m') (hm : m.WellFormed) (hp : p.names ≠ [])
    (hnone : m.module? p = none) : m.Retains (m'.removeModule p) := by
  refine ⟨h.frames, h.records, h.attached, h.path, h.parent, h.tiers, fun {q i} hq => ?_⟩
  have hout : p.within q = false := by
    cases hw : p.within q with
    | false => rfl
    | true =>
      obtain ⟨j, hj⟩ := hm.above hq hp hw
      exact absurd hj (notMem_registry_of_module? hnone j)
  simp [Machine.removeModule, h.registered hq, hout]

/-- A module is registered inside another that is, or outside all. -/
theorem WellFormed.pushRecord (h : m.WellFormed) {parent : Option RecordId} (hp : p.names ≠ [])
    (hnone : m.module? p = none)
    (hinner : ∀ q, p.parent? = some q → ∃ j, (q, j) ∈ m.registry ∧ parent = some j)
    (houter : p.parent? = none → parent = none) :
    ({ m with records := m.records.push { path := p, parent := parent },
              registry := m.registry ++ [(p, m.records.size)] } : Machine).WellFormed := by
  have hrecord : ∀ j, (Machine.record { m with
      records := m.records.push { path := p, parent := parent },
      registry := m.registry ++ [(p, m.records.size)] } j) =
      if j = m.records.size then { path := p, parent := parent } else m.record j := by
    intro j
    unfold record
    rw [Array.getElem?_push]
    split <;> rfl
  have hold : ∀ {q j}, (q, j) ∈ m.registry → j ≠ m.records.size :=
    fun hq => Nat.ne_of_lt (h.stored hq).1
  refine ⟨?_, ?_, ?_, ?_, ?_, ?_, h.attached⟩
  · rw [List.map_append, List.nodup_append]
    refine ⟨h.distinct, by simp, ?_⟩
    rintro q hq _ hlast rfl
    obtain ⟨⟨_, j⟩, hj, rfl⟩ := List.mem_map.mp hq
    cases List.mem_singleton.mp hlast
    exact notMem_registry_of_module? hnone j hj
  · intro q j hq
    rcases List.mem_append.mp hq with hq | hq
    · exact h.named hq
    · cases List.mem_singleton.mp hq
      exact hp
  · intro q j hq
    rw [hrecord, Array.size_push]
    rcases List.mem_append.mp hq with hq | hq
    · rw [if_neg (hold hq)]
      have hs := h.stored hq
      exact ⟨Nat.lt_succ_of_lt hs.1, hs.2⟩
    · cases List.mem_singleton.mp hq
      rw [if_pos rfl]
      exact ⟨Nat.lt_succ_self _, rfl⟩
  · intro q j r hq hr
    rw [hrecord]
    rcases List.mem_append.mp hq with hq | hq
    · obtain ⟨k, hk, hparent⟩ := h.inner hq hr
      rw [if_neg (hold hq)]
      exact ⟨k, List.mem_append_left _ hk, hparent⟩
    · cases List.mem_singleton.mp hq
      obtain ⟨k, hk, hparent⟩ := hinner r hr
      rw [if_pos rfl]
      exact ⟨k, List.mem_append_left _ hk, hparent⟩
  · intro q j hq hr
    rw [hrecord]
    rcases List.mem_append.mp hq with hq | hq
    · rw [if_neg (hold hq)]
      exact h.outermost hq hr
    · cases List.mem_singleton.mp hq
      rw [if_pos rfl]
      exact houter hr
  · intro j
    rw [hrecord]
    split
    · rintro x ⟨hx, -⟩
      cases hx
    · exact h.tiered j

theorem retains_pushRecord (m : Machine) (p : ModulePath) (parent : Option RecordId) :
    m.Retains { m with records := m.records.push { path := p, parent := parent },
                       registry := m.registry ++ [(p, m.records.size)] } := by
  have hrecord : ∀ j < m.records.size, (Machine.record { m with
      records := m.records.push { path := p, parent := parent },
      registry := m.registry ++ [(p, m.records.size)] } j) = m.record j := by
    intro j hj
    unfold record
    rw [Array.getElem?_push, if_neg (Nat.ne_of_lt hj)]
  refine ⟨Nat.le_refl _, ?_, fun _ _ => rfl, ?_, ?_, ?_, fun hq => List.mem_append_left _ hq⟩
  · simp
  · intro j hj
    rw [hrecord j hj]
  · intro j hj
    rw [hrecord j hj]
  · intro j vis x hx
    by_cases hj : j < m.records.size
    · rw [hrecord j hj]
      exact hx
    · have hdefault : m.record j = default := by
        unfold record
        rw [Array.getElem?_eq_none (Nat.le_of_not_lt hj)]
        rfl
      rw [hdefault] at hx
      cases vis <;> cases hx

/-- The path under which a context registers a module. -/
def pathFor (m : Machine) (c : Context) (n : Ident) : ModulePath :=
  match (m.frame c.scope.frame).record with
  | some j => (m.record j).path.child n
  | none => ⟨c.site.source, [n]⟩

theorem pathFor_names (m : Machine) (c : Context) (n : Ident) : (m.pathFor c n).names ≠ [] := by
  unfold pathFor
  split <;> simp [ModulePath.child]

variable {c : Context} {isOutermost : Bool}

theorem register_of_path {k : Machine}
    (h : m.declareModule (m.pathFor c n) (m.frame c.scope.frame).record = .ok (i, k)) :
    register c n m = .ok (i, m.pathFor c n, (m.frame c.scope.frame).record.isNone) k := by
  unfold pathFor at h ⊢
  unfold register
  cases hr : (m.frame c.scope.frame).record <;> rw [hr] at h <;> dsimp only at h ⊢ <;> rw [h]

theorem register_of_refused {e : Failure}
    (h : m.declareModule (m.pathFor c n) (m.frame c.scope.frame).record = .error e) :
    register c n m = .error e m := by
  unfold pathFor at h
  unfold register
  cases hr : (m.frame c.scope.frame).record <;> rw [hr] at h <;> dsimp only at h ⊢ <;> rw [h]

theorem register_eq_ok (h : register c n m = .ok (i, p, isOutermost) m') :
    p = m.pathFor c n ∧ m.module? p = none ∧ i = m.records.size ∧
      m' = { m with
        records := m.records.push { path := p, parent := (m.frame c.scope.frame).record }
        registry := m.registry ++ [(p, m.records.size)] } := by
  cases hp : m.module? (m.pathFor c n) with
  | some j =>
    rw [register_of_refused (declareModule_of_some hp _)] at h
    cases h
  | none =>
    rw [register_of_path (declareModule_of_none hp _)] at h
    cases h
    exact ⟨rfl, hp, rfl, rfl⟩

theorem path_register (h : register c n m = .ok (i, p, isOutermost) m') :
    (m'.record i).path = p := by
  obtain ⟨-, -, rfl, rfl⟩ := register_eq_ok h
  rw [record_push, if_pos rfl]

/-- A module outside all others is one whose declaration stands in no module's frame. -/
theorem register_isOutermost (h : register c n m = .ok (i, p, isOutermost) m') :
    isOutermost = (m.frame c.scope.frame).record.isNone := by
  unfold register at h
  dsimp only at h
  split at h
  · cases h
    rfl
  · cases h

theorem WellFormed.register (h : m.WellFormed) (hc : m.Hosts c.scope.frame)
    (hr : register c n m = .ok (i, p, isOutermost) m') : m'.WellFormed ∧ m.Retains m' ∧
      p.names ≠ [] ∧ m.module? p = none ∧ i < m'.records.size ∧
      ((m'.record i).path, i) ∈ m'.registry := by
  obtain ⟨hp, hnone, rfl, rfl⟩ := register_eq_ok hr
  have hpath : p.names ≠ [] ∧
      (∀ q, p.parent? = some q → ∃ j, (q, j) ∈ m.registry ∧
        (m.frame c.scope.frame).record = some j) ∧
      (p.parent? = none → (m.frame c.scope.frame).record = none) := by
    unfold pathFor at hp
    cases hj : (m.frame c.scope.frame).record with
    | none =>
      rw [hj] at hp
      subst hp
      refine ⟨by simp, fun q hq => ?_, fun _ => rfl⟩
      cases hq
    | some j =>
      rw [hj] at hp
      subst hp
      obtain ⟨-, hreg⟩ := hc.registered j hj
      have hchild := ModulePath.parent?_child (h.named hreg) n
      refine ⟨by simp [ModulePath.child], fun q hq => ?_, fun hq => ?_⟩
      · rw [hchild] at hq
        cases hq
        exact ⟨j, hreg, rfl⟩
      · rw [hchild] at hq
        cases hq
  obtain ⟨hne, hinner, houter⟩ := hpath
  have hwell := h.pushRecord hne hnone hinner houter
  refine ⟨hwell, retains_pushRecord m p _, hne, hnone, ?_⟩
  have hmem : (p, m.records.size) ∈ m.registry ++ [(p, m.records.size)] :=
    List.mem_append_right _ (.head _)
  obtain ⟨hsize, hsame⟩ := hwell.stored hmem
  refine ⟨hsize, ?_⟩
  rw [hsame]
  exact hmem

end Machine

end ModuleScript
