import ModuleScript.Proofs.Privacy.Discipline

/-!
# Actions that keep a discipline

What is done alike to two machines that differ in secret members only leaves them so, and sound, if
all that it stores keeps the discipline. What is stored in a secret member may differ.
-/

set_option autoImplicit false

namespace ModuleScript.Discipline

open Eval

variable {D : Discipline} {m m' n n' : Machine}

/-- Two machines that are alike are changed and are so again. -/
structure Moves (D : Discipline) (m n m' n' : Machine) : Prop where
  grows : Grows m m'
  sound : D.Sound m'
  alike : D.Alike m' n'

theorem Moves.trans {a b c a' b' c' : Machine} (h : D.Moves a a' b b') (h' : D.Moves b b' c c') :
    D.Moves a a' c c' :=
  ⟨h.grows.trans h'.grows, h'.sound, h'.alike⟩

theorem moves_refl (hs : D.Sound m) (ha : D.Alike m n) : D.Moves m n m n :=
  ⟨grows_refl m, hs, ha⟩

/-! ## All but the records -/

/-- A machine with the same records whose frames, exports and loaded files hold nothing invalid. -/
theorem Sound.next (hs : D.Sound m) (hr : m'.records = m.records) (hg : Grows m m')
    (hslots : ∀ {i n v}, (n, Slot.value v) ∈ (m'.frame i).bindings → D.Valid m v)
    (hexports : ∀ {i n v}, (n, v) ∈ m'.exportsOf i → D.Valid m v)
    (hloaded : ∀ {p e n v}, (p, e) ∈ m'.loaded → (n, v) ∈ e → D.Valid m v)
    (hattached : ∀ {i r}, (m'.frame i).record = some r → r < m.records.size) : D.Sound m' := by
  have hrecord : ∀ i, m'.record i = m.record i := by
    intro i
    unfold Machine.record
    rw [hr]
  refine ⟨?_, ?_, ?_, ?_, ?_, ?_, ?_⟩
  · intro i x v hx
    exact like_later hg (hslots hx)
  · intro i x v hx
    rw [hrecord] at hx
    exact like_later hg (hs.publicMembers hx)
  · intro i x v hx hsecret
    rw [hrecord] at hx hsecret
    exact like_later hg (hs.privateMembers hx hsecret)
  · intro i x v hx
    exact like_later hg (hexports hx)
  · intro p e x v he hx
    exact like_later hg (hloaded he hx)
  · intro i r hi
    rw [hr]
    exact hattached hi
  · intro i x s hx
    rw [hrecord] at hx ⊢
    exact hs.unhidden hx

theorem moves_pushFrame (hs : D.Sound m) (ha : D.Alike m n) {f : Frame}
    (hf : ∀ {x v}, (x, Slot.value v) ∈ f.bindings → D.Valid m v)
    (hr : ∀ r, f.record = some r → r < m.records.size) :
    D.Moves m n (m.pushFrame f) (n.pushFrame f) := by
  have hframe : ∀ i, (m.pushFrame f).frame i = m.frame i ∨ (m.pushFrame f).frame i = f := by
    intro i
    unfold Machine.frame Machine.pushFrame
    rw [Array.getElem?_push]
    split
    · exact .inr rfl
    · exact .inl rfl
  have hg : Grows m (m.pushFrame f) := by
    refine ⟨?_, Nat.le_refl _, fun i hi => ?_, fun _ _ => rfl⟩
    · simp [Machine.pushFrame]
    · rw [Machine.frame_pushFrame m f hi]
  refine ⟨hg, ?_, ha.act (·.pushFrame f) fun _ _ => rfl⟩
  refine hs.next rfl hg ?_ hs.exports hs.loaded ?_
  · intro i x v hx
    rcases hframe i with he | he
    · rw [he] at hx
      exact hs.slots hx
    · rw [he] at hx
      exact hf hx
  · intro i r hi
    rcases hframe i with he | he
    · rw [he] at hi
      exact hs.attached hi
    · rw [he] at hi
      exact hr r hi

theorem moves_bindings (hs : D.Sound m) (ha : D.Alike m n) (i : FrameId)
    {g : Bindings Slot → Bindings Slot}
    (hv : ∀ {b x v}, (x, Slot.value v) ∈ g b → (x, Slot.value v) ∈ b ∨ D.Valid m v) :
    D.Moves m n { m with frames := m.frames.modify i fun f => { f with bindings := g f.bindings } }
      { n with frames := n.frames.modify i fun f => { f with bindings := g f.bindings } } := by
  let f : Machine → Machine := fun m =>
    { m with frames := m.frames.modify i fun f => { f with bindings := g f.bindings } }
  have hframe : ∀ j, (f m).frame j = m.frame j ∨
      i = j ∧ (f m).frame j = { m.frame j with bindings := g (m.frame j).bindings } :=
    fun j => Machine.frame_modify m i j _
  have hrecord : ∀ j, ((f m).frame j).record = (m.frame j).record := by
    intro j
    rcases hframe j with he | ⟨_, he⟩
    · rw [he]
    · rw [he]
  have hg : Grows m (f m) := by
    refine ⟨?_, Nat.le_refl _, fun j _ => hrecord j, fun _ _ => rfl⟩
    simp [f]
  refine ⟨hg, ?_, ha.act f fun _ _ => rfl⟩
  refine hs.next rfl hg ?_ hs.exports hs.loaded ?_
  · intro j x v hx
    rcases hframe j with he | ⟨_, he⟩
    · rw [he] at hx
      exact hs.slots hx
    · rw [he] at hx
      rcases hv hx with hx | hx
      · exact hs.slots hx
      · exact hx
  · intro j r hj
    rw [hrecord] at hj
    exact hs.attached hj

theorem moves_setSlot (hs : D.Sound m) (ha : D.Alike m n) (i : FrameId) (x : Ident) {s : Slot}
    (hv : ∀ v, s = .value v → D.Valid m v) : D.Moves m n (m.setSlot i x s) (n.setSlot i x s) := by
  refine moves_bindings (g := (·.set x s)) hs ha i fun {b y v} hy => ?_
  rcases Bindings.mem_set hy with h | ⟨_, h⟩
  · exact .inl h
  · exact .inr (hv v h.symm)

theorem moves_eraseSlot (hs : D.Sound m) (ha : D.Alike m n) (i : FrameId) (x : Ident) :
    D.Moves m n (m.eraseSlot i x) (n.eraseSlot i x) :=
  moves_bindings (g := (·.erase x)) hs ha i fun hy => .inl (Bindings.mem_of_mem_erase hy)

theorem moves_exports (hs : D.Sound m) (ha : D.Alike m n) {f : Array Exports → Array Exports}
    (hv : ∀ {i : ExportsId} {x v}, (x, v) ∈ ((f m.exports)[i]?).getD [] → D.Valid m v) :
    D.Moves m n { m with exports := f m.exports } { n with exports := f n.exports } := by
  have hg : Grows m { m with exports := f m.exports } :=
    ⟨Nat.le_refl _, Nat.le_refl _, fun _ _ => rfl, fun _ _ => rfl⟩
  refine ⟨hg, ?_, ha.act (fun m => { m with exports := f m.exports }) fun _ _ => rfl⟩
  exact hs.next rfl hg hs.slots hv hs.loaded hs.attached

theorem moves_setExport (hs : D.Sound m) (ha : D.Alike m n) (i : ExportsId) (x : Ident) {v : Value}
    (hv : D.Valid m v) : D.Moves m n (m.setExport i x v) (n.setExport i x v) := by
  refine moves_exports (f := (·.modify i (·.set x v))) hs ha fun {j y u} hy => ?_
  rcases Machine.exportsOf_modify m i j (·.set x v) with he | he
  · rw [he] at hy
    exact hs.exports hy
  · rw [he] at hy
    rcases Bindings.mem_set hy with hy | ⟨_, rfl⟩
    · exact hs.exports hy
    · exact hv

theorem moves_eraseExport (hs : D.Sound m) (ha : D.Alike m n) (i : ExportsId) (x : Ident) :
    D.Moves m n (m.eraseExport i x) (n.eraseExport i x) := by
  refine moves_exports (f := (·.modify i (·.erase x))) hs ha fun {j y u} hy => ?_
  rcases Machine.exportsOf_modify m i j (·.erase x) with he | he
  · rw [he] at hy
    exact hs.exports hy
  · rw [he] at hy
    exact hs.exports (Bindings.mem_of_mem_erase hy)

theorem moves_pushExports (hs : D.Sound m) (ha : D.Alike m n) :
    D.Moves m n { m with exports := m.exports.push [] } { n with exports := n.exports.push [] } := by
  refine moves_exports (f := (·.push [])) hs ha fun {j y u} hy => ?_
  rw [Array.getElem?_push] at hy
  split at hy
  · cases hy
  · exact hs.exports hy

theorem moves_setLoaded (hs : D.Sound m) (ha : D.Alike m n) (p : Path) {e : Exports}
    (he : ∀ {x v}, (x, v) ∈ e → D.Valid m v) :
    D.Moves m n { m with loaded := Machine.setLoaded p e m.loaded }
      { n with loaded := Machine.setLoaded p e n.loaded } := by
  have hg : Grows m { m with loaded := Machine.setLoaded p e m.loaded } :=
    ⟨Nat.le_refl _, Nat.le_refl _, fun _ _ => rfl, fun _ _ => rfl⟩
  refine ⟨hg, ?_, ha.act (fun m => { m with loaded := Machine.setLoaded p e m.loaded })
    fun _ _ => rfl⟩
  refine hs.next rfl hg hs.slots hs.exports ?_ hs.attached
  intro q d x v hd hx
  rcases Machine.mem_setLoaded hd with h | rfl
  · exact hs.loaded h hx
  · exact he hx

theorem moves_rest (hs : D.Sound m) (ha : D.Alike m n) {f : Machine → Machine}
    (hf : ∀ m rs, f (m.withRecords rs) = (f m).withRecords rs)
    (hframes : (f m).frames = m.frames) (hrecords : (f m).records = m.records)
    (hexports : (f m).exports = m.exports) (hloaded : (f m).loaded = m.loaded) :
    D.Moves m n (f m) (f n) := by
  have hframe : ∀ i, (f m).frame i = m.frame i := by
    intro i
    unfold Machine.frame
    rw [hframes]
  have hg : Grows m (f m) := by
    refine ⟨Nat.le_of_eq (by rw [hframes]), Nat.le_of_eq (by rw [hrecords]), fun i _ => ?_,
      fun i _ => ?_⟩
    · rw [hframe]
    · unfold Machine.record
      rw [hrecords]
  refine ⟨hg, ?_, ha.act f hf⟩
  refine hs.next hrecords hg ?_ ?_ ?_ ?_
  · intro i x v hx
    rw [hframe] at hx
    exact hs.slots hx
  · intro i x v hx
    unfold Machine.exportsOf at hx
    rw [hexports] at hx
    exact hs.exports hx
  · intro p e x v he
    rw [hloaded] at he
    exact hs.loaded he
  · intro i r hi
    rw [hframe] at hi
    exact hs.attached hi

/-! ## Records -/

theorem AlikeRecord.visibility?_eq {r r' : Record} (h : D.AlikeRecord r r') (x : Ident) :
    r.visibility? x = r'.visibility? x := by
  unfold Record.visibility?
  rw [h.publicMembers, h.privateMembers.has_eq]

theorem AlikeRecord.setMember {r r' : Record} (h : D.AlikeRecord r r') {x : Ident} {s s' : Slot}
    {v : Visibility} (hs : s = s' ∨ v = .isPrivate ∧ D.Secret r.path x) :
    D.AlikeRecord (r.setMember v x s) (r'.setMember v x s') := by
  cases v with
  | isPublic =>
    rcases hs with rfl | ⟨hv, _⟩
    · refine ⟨h.path, h.parent, ?_, h.privateMembers⟩
      exact congrArg (Bindings.set · x s) h.publicMembers
    · cases hv
  | isPrivate =>
    refine ⟨h.path, h.parent, h.publicMembers, ?_⟩
    have hx : D.Secret r.path x ∨ s = s' := by
      rcases hs with hs | ⟨_, hs⟩
      · exact .inr hs
      · exact .inl hs
    exact h.privateMembers.set hx

theorem moves_setRecord (hs : D.Sound m) (ha : D.Alike m n) (i : RecordId) {r r' : Record}
    (hpath : r.path = (m.record i).path) (hr : D.AlikeRecord r r')
    (hpublic : ∀ {x v}, (x, Slot.value v) ∈ r.publicMembers → D.Valid m v)
    (hprivate : ∀ {x v}, (x, Slot.value v) ∈ r.privateMembers → ¬ D.Secret r.path x → D.Valid m v)
    (hunhidden : ∀ {x s}, (x, s) ∈ r.publicMembers → ¬ D.Secret r.path x) :
    D.Moves m n (m.setRecord i r) (n.setRecord i r') := by
  have hrecord : ∀ j, (m.setRecord i r).record j = m.record j ∨
      i = j ∧ (m.setRecord i r).record j = r := by
    intro j
    rw [Machine.record_setRecord]
    split
    · rename_i hij
      exact .inr ⟨hij.1, rfl⟩
    · exact .inl rfl
  have hg : Grows m (m.setRecord i r) := by
    refine ⟨Nat.le_refl _, ?_, fun _ _ => rfl, fun j _ => ?_⟩
    · simp [Machine.setRecord]
    · rcases hrecord j with he | ⟨rfl, he⟩
      · rw [he]
      · rw [he, hpath]
  have hsound : D.Sound (m.setRecord i r) := {
    slots := fun hx => like_later hg (hs.slots hx)
    publicMembers := by
      intro j x v hx
      rcases hrecord j with he | ⟨_, he⟩
      · rw [he] at hx
        exact like_later hg (hs.publicMembers hx)
      · rw [he] at hx
        exact like_later hg (hpublic hx)
    privateMembers := by
      intro j x v hx hsecret
      rcases hrecord j with he | ⟨_, he⟩
      · rw [he] at hx hsecret
        exact like_later hg (hs.privateMembers hx hsecret)
      · rw [he] at hx hsecret
        exact like_later hg (hprivate hx hsecret)
    exports := fun hx => like_later hg (hs.exports hx)
    loaded := fun he hx => like_later hg (hs.loaded he hx)
    attached := by
      intro j k hk
      have hlt := hs.attached hk
      simpa [Machine.setRecord] using hlt
    unhidden := by
      intro j x s hx
      rcases hrecord j with he | ⟨_, he⟩
      · rw [he] at hx ⊢
        exact hs.unhidden hx
      · rw [he] at hx ⊢
        exact hunhidden hx }
  refine ⟨hg, hsound, ?_⟩
  obtain ⟨⟨rs, rfl⟩, hsize, halike⟩ := ha
  refine ⟨⟨rs.modify i fun _ => r', rfl⟩, ?_, fun j => ?_⟩
  · simpa [Machine.setRecord, Machine.withRecords] using hsize
  · have he : (m.withRecords rs).records.size = m.records.size := hsize
    rw [Machine.record_setRecord, Machine.record_setRecord, he]
    split
    · exact hr
    · exact halike j

theorem moves_setMember (hs : D.Sound m) (ha : D.Alike m n) (i : RecordId) (x : Ident) {s s' : Slot}
    {v : Visibility} (hv : v = .isPublic → ¬ D.Secret (m.record i).path x)
    (hx : D.Secret (m.record i).path x ∨ s = s' ∧ ∀ u, s = .value u → D.Valid m u) :
    D.Moves m n (m.setRecord i ((m.record i).setMember v x s))
      (n.setRecord i ((n.record i).setMember v x s')) := by
  have hpath := Record.path_setMember (m.record i) v x s
  refine moves_setRecord hs ha i hpath ?_ ?_ ?_ ?_
  · refine (ha.record i).setMember ?_
    rcases hx with hx | hx
    · cases v with
      | isPublic => exact absurd hx (hv rfl)
      | isPrivate => exact .inr ⟨rfl, hx⟩
    · exact .inl hx.1
  · intro y u hy
    cases v with
    | isPublic =>
      rcases Bindings.mem_set hy with hy | ⟨_, hu⟩
      · exact hs.publicMembers hy
      · rcases hx with hx | hx
        · exact absurd hx (hv rfl)
        · exact hx.2 u hu.symm
    | isPrivate => exact hs.publicMembers hy
  · intro y u hy hsecret
    rw [hpath] at hsecret
    cases v with
    | isPublic => exact hs.privateMembers hy hsecret
    | isPrivate =>
      rcases Bindings.mem_set hy with hy | ⟨rfl, hu⟩
      · exact hs.privateMembers hy hsecret
      · rcases hx with hx | hx
        · exact absurd hx hsecret
        · exact hx.2 u hu.symm
  · intro y t hy
    rw [hpath]
    cases v with
    | isPublic =>
      rcases Bindings.mem_set hy with hy | ⟨rfl, _⟩
      · exact hs.unhidden hy
      · exact hv rfl
    | isPrivate => exact hs.unhidden hy

theorem moves_defineMember (hs : D.Sound m) (ha : D.Alike m n) (i : RecordId) (x : Ident)
    {s s' : Slot} {v : Visibility} (hv : v = .isPublic → ¬ D.Secret (m.record i).path x)
    (hx : D.Secret (m.record i).path x ∨ s = s' ∧ ∀ u, s = .value u → D.Valid m u) :
    D.Moves m n (m.defineMember i x s v) (n.defineMember i x s' v) := by
  unfold Machine.defineMember Record.define
  rw [← (ha.record i).visibility?_eq x]
  refine moves_setMember hs ha i x (fun hpublic => ?_) hx
  cases hq : (m.record i).visibility? x with
  | none =>
    rw [hq] at hpublic
    exact hv hpublic
  | some q =>
    rw [hq] at hpublic
    cases hpublic
    -- A name that is public in the record already is not secret.
    unfold Record.visibility? at hq
    rw [Bindings.has_eq_isSome] at hq
    cases hg : (m.record i).publicMembers.get? x with
    | some t => exact hs.unhidden (Bindings.mem_of_get? hg)
    | none =>
      rw [hg] at hq
      simp at hq

end ModuleScript.Discipline
