import ModuleScript.Eval.Run
import ModuleScript.Proofs.Invariant.Basic
import ModuleScript.Proofs.Store

/-!
# Invariants and single actions

An invariant is a condition that every single change of the machine keeps, and every operation on
values but the one that drops the first element of a list. What evaluation does to names, modules
and files is made of such changes.
-/

set_option autoImplicit false

namespace ModuleScript

open Eval Condition

/-- All that has been exported is good. -/
structure Machine.Exporting (good : Value → Prop) (m : Machine) : Prop where
  exports : ∀ {i n v}, (n, v) ∈ m.exportsOf i → good v
  loaded : ∀ {p e n v}, (p, e) ∈ m.loaded → (n, v) ∈ e → good v

/-- A module that has been registered: it may get a frame of its own, and to drop it again keeps what
there was before. -/
structure Condition.Registers (I : Condition) (m : Machine) (i : RecordId) (p : ModulePath)
    (m₁ : Machine) : Prop where
  moves : I.Moves m m₁
  frame : ∀ k name, I.Moves m₁ k → I.Moves k (k.pushFrame { name, record := some i }) ∧
    I.Placed (k.pushFrame { name, record := some i }) k.frames.size
  drop : ∀ k, I.Moves m k → I.Moves m (k.removeModule p)

structure Invariant extends Condition where
  atom : ∀ {v}, (∀ vs, v ≠ .list vs) → Good v
  item : ∀ {vs v}, Good (.list vs) → v ∈ vs → Good v
  ofItems : ∀ {vs}, (∀ v ∈ vs, Good v) → Good (.ofItems vs)
  reverse : ∀ {vs}, Good (.list vs) → Good (.list vs.reverse)
  slot : ∀ {m i n v}, Sound m → (n, .value v) ∈ (m.frame i).bindings → Good v
  member : ∀ {m i n v} vis, Sound m → (n, .value v) ∈ (m.record i).members vis → Good v
  exporting : ∀ {m}, Sound m → m.Exporting Good
  pushFrame : ∀ {m f}, Sound m → f.record = none →
    (∀ n s, (n, s) ∈ f.bindings → ∃ v, s = .value v ∧ Good v) →
    toCondition.Moves m (m.pushFrame f) ∧ Placed (m.pushFrame f) m.frames.size
  /-- A slot is set outside modules, or where there is one of the name. -/
  setSlot : ∀ {m i n s}, Sound m → (∀ v, s = .value v → Good v) →
    (m.frame i).record = none ∨ (∃ t, (m.frame i).bindings.get? n = some t) →
    toCondition.Moves m (m.setSlot i n s)
  eraseSlot : ∀ {m i} n, Sound m → (m.frame i).record = none →
    toCondition.Moves m (m.eraseSlot i n)
  defineMember : ∀ {m s} i n vis, Sound m → (∀ v, s = .value v → Good v) →
    toCondition.Moves m (m.defineMember i n s vis)
  declare : ∀ {m i n vis r}, Sound m → (m.record i).declare n vis = .ok r →
    toCondition.Moves m (m.setRecord i r)
  register : ∀ {m m' c n i p isOutermost}, Sound m → Placed m c.scope.frame →
    Eval.register c n m = .ok (i, p, isOutermost) m' → toCondition.Registers m i p m'
  /-- All else may change as long as what is exported is good. -/
  rest : ∀ {m m'}, Sound m → m'.frames = m.frames → m'.records = m.records →
    m'.registry = m.registry → m'.Exporting Good → toCondition.Moves m m'

namespace Machine.Exporting

variable {good : Value → Prop} {m m' : Machine}

theorem of_eq (h : m.Exporting good) (he : m'.exports = m.exports) (hl : m'.loaded = m.loaded) :
    m'.Exporting good := by
  constructor
  · intro i n v hv
    unfold Machine.exportsOf at hv
    rw [he] at hv
    exact h.exports hv
  · intro p e n v hp
    rw [hl] at hp
    exact h.loaded hp

theorem setExport (h : m.Exporting good) (i : ExportsId) (n : Ident) {v : Value} (hv : good v) :
    (m.setExport i n v).Exporting good := by
  refine ⟨fun {j x u} hu => ?_, h.loaded⟩
  unfold Machine.exportsOf Machine.setExport at hu
  rcases exportsOf_modify m i j (·.set n v) with he | he
  · rw [he] at hu
    exact h.exports hu
  · rw [he] at hu
    rcases Bindings.mem_set hu with hu | ⟨-, rfl⟩
    · exact h.exports hu
    · exact hv

theorem eraseExport (h : m.Exporting good) (i : ExportsId) (n : Ident) :
    (m.eraseExport i n).Exporting good := by
  refine ⟨fun {j x u} hu => ?_, h.loaded⟩
  unfold Machine.exportsOf Machine.eraseExport at hu
  rcases exportsOf_modify m i j (·.erase n) with he | he
  · rw [he] at hu
    exact h.exports hu
  · rw [he] at hu
    exact h.exports (Bindings.mem_of_mem_erase hu)

theorem pushExports (h : m.Exporting good) :
    ({ m with exports := m.exports.push [] } : Machine).Exporting good := by
  refine ⟨fun {j x u} hu => ?_, h.loaded⟩
  unfold Machine.exportsOf at hu
  rw [Array.getElem?_push] at hu
  split at hu
  · cases hu
  · exact h.exports hu

theorem setLoaded (h : m.Exporting good) (p : Path) {e : Exports}
    (he : ∀ n v, (n, v) ∈ e → good v) :
    ({ m with loaded := Machine.setLoaded p e m.loaded } : Machine).Exporting good := by
  refine ⟨h.exports, fun {q d n v} hd hv => ?_⟩
  rcases mem_setLoaded hd with hd | rfl
  · exact h.loaded hd hv
  · exact he n v hv

theorem loaded? (h : m.Exporting good) {p : Path} {e : Exports} (he : m.loaded? p = some e) :
    ∀ n v, (n, v) ∈ e → good v := by
  obtain ⟨⟨q, d⟩, hfind, rfl⟩ := Option.map_eq_some_iff.mp he
  exact fun n v hv => h.loaded (List.mem_of_find?_eq_some hfind) hv

end Machine.Exporting

namespace Invariant

variable {I : Invariant} {quits : Fault → Prop} {m : Machine} {c : Context}

/-- Changes to nothing that the condition is about but perhaps to what is exported. -/
theorem moves_rest {m' : Machine} (hm : I.Sound m) (hf : m'.frames = m.frames)
    (hr : m'.records = m.records) (hg : m'.registry = m.registry)
    (he : m.Exporting I.Good → m'.Exporting I.Good) : I.Moves m m' :=
  I.rest hm hf hr hg (he (I.exporting hm))

theorem moves_idle {m' : Machine} (hm : I.Sound m) (hf : m'.frames = m.frames)
    (hr : m'.records = m.records) (hg : m'.registry = m.registry) (he : m'.exports = m.exports)
    (hl : m'.loaded = m.loaded) : I.Moves m m' :=
  moves_rest hm hf hr hg fun h => h.of_eq he hl

/-! ## Frames and names -/

theorem enter_same {f : Frame} (hf : f.record = none)
    (hb : ∀ n s, (n, s) ∈ f.bindings → ∃ v, s = .value v ∧ I.Good v) :
    I.Same quits m (fun m' d => I.Placed m' d.scope.frame) (c.enter f) (c.enter f) :=
  same_act (fun _ => rfl) fun hm => I.pushFrame hm hf hb

theorem enter_empty_same (name : Text) :
    I.Same quits m (fun m' d => I.Placed m' d.scope.frame) (c.enter { name }) (c.enter { name }) :=
  enter_same rfl fun _ _ hb => by cases hb

theorem enter_single_same (name : Text) (n : Ident) {v : Value} (hv : I.Good v) :
    I.Same quits m (fun m' d => I.Placed m' d.scope.frame)
      (c.enter { name, bindings := [(n, .value v)] })
      (c.enter { name, bindings := [(n, .value v)] }) := by
  refine enter_same rfl fun x s hs => ?_
  cases List.mem_singleton.mp hs
  exact ⟨v, rfl, hv⟩

theorem good_slot {v : Value} (hv : I.Good v) : ∀ u, Slot.value v = .value u → I.Good u := by
  rintro _ ⟨⟩
  exact hv

theorem moves_setExport (hm : I.Sound m) (i : ExportsId) (n : Ident) {v : Value} (hv : I.Good v) :
    I.Moves m (m.setExport i n v) :=
  moves_rest hm rfl rfl rfl fun h => h.setExport i n hv

theorem define_moves (c : Context) (n : Ident) {v : Value} (hv : I.Good v) (isPublic : Bool)
    (hm : I.Sound m) : ∃ m', define c n v isPublic m = .ok ⟨⟩ m' ∧ I.Moves m m' := by
  refine ⟨_, rfl, ?_⟩
  dsimp only
  cases hr : (m.frame c.scope.frame).record with
  | some i => exact I.defineMember i n _ hm (good_slot hv)
  | none =>
    have hset := I.setSlot (i := c.scope.frame) (n := n) hm (good_slot hv) (.inl hr)
    dsimp only
    split
    · exact hset.trans (moves_setExport hset.sound _ n hv)
    · exact hset

theorem define_same (c : Context) (n : Ident) {v : Value} (hv : I.Good v) (isPublic : Bool) :
    I.Same quits m (fun _ _ => True) (define c n v isPublic) (define c n v isPublic) := by
  intro hm
  obtain ⟨m', he, hm'⟩ := define_moves c n hv isPublic hm
  rw [he]
  exact .ok hm' trivial

theorem good_of_member {i : RecordId} {n : Ident} {v : Value} {vis : Visibility} (hm : I.Sound m)
    (h : (m.record i).member? n = some (.value v, vis)) : I.Good v := by
  unfold Record.member? at h
  cases hp : (m.record i).publicMembers.get? n with
  | some s =>
    rw [hp] at h
    cases h
    exact I.member .isPublic hm (Bindings.mem_of_get? hp)
  | none =>
    rw [hp] at h
    obtain ⟨s, hs, he⟩ := Option.map_eq_some_iff.mp h
    cases he
    exact I.member .isPrivate hm (Bindings.mem_of_get? hs)

theorem good_of_lookup {s : Scope} {n : Ident} {r : Resolution} {v : Value} (hm : I.Sound m)
    (hl : m.lookup s n = some r) (hs : r.slot = .value v) : I.Good v := by
  obtain ⟨-, hin⟩ := Machine.lookup_eq_some hl
  rcases (Machine.lookupIn_eq_some hin).2 with ⟨i, -, -, hi⟩ | ⟨-, -, hb⟩
  · rw [hs] at hi
    exact good_of_member hm hi
  · rw [hs] at hb
    exact I.slot hm (Bindings.mem_of_get? hb)

theorem resolve_same (c : Context) (n : Ident) :
    I.Same quits m (fun _ r => I.Good r.2) (resolve c n) (resolve c n) := by
  refine same_reads (reads_resolve c n) fun r hm hr => ?_
  obtain ⟨-, hl, hs, -⟩ := resolve_eq_ok hr
  exact good_of_lookup hm hl hs

theorem follow_same (c : Context) (walked : Text) {v : Value} (hv : I.Good v) (names : List Ident) :
    I.Same quits m (fun _ => I.Good) (follow c walked v names) (follow c walked v names) := by
  induction names generalizing walked v with
  | nil => exact same_pure hv
  | cons n rest ih =>
    cases v with
    | module i path =>
      intro hm
      cases hmember : (m.record i).member? n with
      | none =>
        rw [follow_of_none walked path rest hmember]
        exact same_because _ hm
      | some p =>
        obtain ⟨s, vis⟩ := p
        rw [follow_of_some walked path rest hmember]
        rcases readSlot_cases c.module (some path) vis n s with ⟨u, hu, hs, -⟩ | ⟨e, he⟩
        · rw [hu]
          rw [hs] at hmember
          exact ih _ (good_of_member hm hmember) hm
        · rw [he]
          exact .error (moves_refl hm)
    | _ => exact same_because _

theorem dotted_same (c : Context) (names : List Ident) :
    I.Same quits m (fun _ => I.Good) (dotted c names) (dotted c names) := by
  cases names with
  | nil => exact same_pure (I.atom fun _ hu => by cases hu)
  | cons n rest => exact (resolve_same c n).bind fun _ _ _ hr => follow_same c n hr rest

/-! ## Functions -/

theorem good_closure (f : Closure) : I.Good (.closure f) :=
  I.atom fun _ hf => by cases hf

theorem newClosure_same (n : Option Ident) (vs : List Variant) :
    I.Same quits m (fun _ => I.Good) (newClosure n vs) (newClosure n vs) :=
  same_act (fun _ => rfl) fun hm => ⟨moves_idle hm rfl rfl rfl rfl rfl, good_closure _⟩

theorem replace_moves {r : Resolution} {n : Ident} (hm : I.Sound m)
    (hl : m.lookup c.scope n = some r) (f : Closure) :
    ∃ m', replace c r n (.closure f) m = .ok ⟨⟩ m' ∧ I.Moves m m' := by
  refine ⟨_, rfl, ?_⟩
  dsimp only
  obtain ⟨-, hin⟩ := Machine.lookup_eq_some hl
  obtain ⟨-, ⟨i, ho, -, -⟩ | ⟨ho, -, hb⟩⟩ := Machine.lookupIn_eq_some hin
  · rw [ho]
    exact I.defineMember i n _ hm (good_slot (good_closure f))
  · rw [ho]
    have hset := I.setSlot hm (good_slot (good_closure f)) (.inr ⟨_, hb⟩)
    dsimp only
    split
    · exact hset.trans (moves_setExport hset.sound _ n (good_closure f))
    · exact hset

theorem vary_same (c : Context) (n : Ident) (variant : Variant) :
    I.Same quits m (fun _ => I.Good) (vary c n variant) (vary c n variant) := by
  intro hm
  unfold vary
  rcases reads_resolve c n m with ⟨⟨r, v⟩, he⟩ | ⟨e, he⟩
  · rw [bind_of_ok he]
    obtain ⟨-, hl, -, -⟩ := resolve_eq_ok he
    cases v with
    | closure f =>
      dsimp only
      split
      · exact same_because _ hm
      · have hnew : I.Moves m { m with functions := m.functions + 1 } :=
          moves_idle hm rfl rfl rfl rfl rfl
        obtain ⟨m', he', hm'⟩ := replace_moves (c := c) hnew.sound hl
          ⟨m.functions, f.name, f.variants ++ [variant]⟩
        have hmade : newClosure f.name (f.variants ++ [variant]) m = .ok _ _ := rfl
        rw [bind_of_ok hmade, bind_of_ok he']
        exact .ok (hnew.trans hm') (good_closure _)
    | _ => exact same_because _ hm
  · rw [bind_of_error he]
    exact .error (moves_refl hm)

/-! ## Modules -/

/-- A name gets back a meaning that is good. -/
theorem restore_moves (hm : I.Sound m) {n : Ident} {old : Previous}
    (hslot : ∀ v, old.slot = some (.value v) → I.Good v)
    (hexported : ∀ v, old.exported = some v → I.Good v) : I.Moves m (restore c n old m) := by
  have herase : ∀ {k}, I.Moves m k →
      I.Moves m (if c.scope.frame = c.site.globals then k.eraseExport c.site.exports n else k) := by
    intro k hk
    split
    · exact hk.trans (moves_rest hk.sound rfl rfl rfl fun h => h.eraseExport _ n)
    · exact hk
  have hset : ∀ {k v}, I.Good v → I.Moves m k →
      I.Moves m (if c.scope.frame = c.site.globals then k.setExport c.site.exports n v else k) := by
    intro k v hv hk
    split
    · exact hk.trans (moves_setExport hk.sound _ n hv)
    · exact hk
  unfold restore
  cases hr : (m.frame c.scope.frame).record with
  | some i => exact I.defineMember i n _ hm fun _ hs => by cases hs
  | none =>
    dsimp only
    cases ho : old.slot with
    | none =>
      have hk := I.eraseSlot n hm hr
      cases he : old.exported with
      | none => exact herase hk
      | some v => exact hset (hexported v he) hk
    | some s =>
      have hk : I.Moves m (m.setSlot c.scope.frame n s) :=
        I.setSlot hm (fun v hs => hslot v (hs ▸ ho)) (.inl hr)
      cases he : old.exported with
      | none => exact herase hk
      | some v => exact hset (hexported v he) hk

/-- A module that has been opened, and what is kept when it is dropped again. -/
structure Opens (I : Invariant) (m : Machine) (c : Context) (n : Ident) (o : Opened)
    (m₁ : Machine) : Prop where
  moves : I.Moves m m₁
  placed : I.Placed m₁ o.inner.scope.frame
  closes : ∀ k, I.Moves m₁ k → I.Moves m (restore c n o.old (k.removeModule o.path))

theorem opens_of_ok {isPublic : Bool} {n : Ident} {o : Opened} {m' : Machine} (hm : I.Sound m)
    (hc : I.Placed m c.scope.frame) (ho : openModule c isPublic n m = .ok o m') :
    I.Opens m c n o m' := by
  unfold openModule at ho
  cases hr : Eval.register c n m with
  | error e k =>
    rw [bind_of_error hr] at ho
    cases ho
  | ok r m₁ =>
    obtain ⟨i, p, isOutermost⟩ := r
    have hreg := I.register hm hc hr
    have hmodule : I.Good (.module i p) := I.atom fun _ hv => by cases hv
    obtain ⟨m₂, hd, hm₂⟩ :=
      define_moves c n hmodule (isPublic || isOutermost) hreg.moves.sound
    obtain ⟨hframe, hplaced⟩ := hreg.frame m₂ ("mod " ++ p.text) hm₂
    rw [bind_of_ok hr] at ho
    dsimp only at ho
    rw [get_bind, bind_of_ok hd] at ho
    cases ho
    have hmoves := hreg.moves.trans (hm₂.trans hframe)
    refine ⟨hmoves, hplaced, fun k hk => ?_⟩
    have hdrop := hreg.drop k (hmoves.trans hk)
    refine hdrop.trans (restore_moves hdrop.sound (fun v hv => ?_) fun v hv => ?_)
    · exact I.slot hreg.moves.sound (Bindings.mem_of_get? hv)
    · exact (I.exporting hreg.moves.sound).exports (Bindings.mem_of_get? hv)

theorem machine_of_register_error {m' : Machine} {n : Ident} {e : Failure}
    (h : Eval.register c n m = .error e m') : m' = m := by
  unfold Eval.register at h
  dsimp only at h
  split at h
  · cases h
  · cases h
    rfl

theorem openModule_cases (c : Context) (isPublic : Bool) (n : Ident) (m : Machine) :
    (∃ o m', openModule c isPublic n m = .ok o m') ∨ ∃ e, openModule c isPublic n m = .error e m := by
  unfold openModule
  cases hr : Eval.register c n m with
  | ok r m' =>
    rw [bind_of_ok hr]
    exact .inl ⟨_, _, rfl⟩
  | error e m' =>
    rw [bind_of_error hr, machine_of_register_error hr]
    exact .inr ⟨e, rfl⟩

theorem declareMembers_same (i : RecordId) (body : List Stmt) :
    I.Same quits m (fun _ _ => True) (declareMembers i body) (declareMembers i body) := by
  refine same_forM fun m' p _ _ => same_change fun k hm hk => ?_
  obtain ⟨n, vis⟩ := p
  obtain ⟨r, hd, rfl⟩ := declare_eq_ok hk
  exact I.declare hm hd

/-! ## Files -/

theorem newSite_same (source : Text) {globals : FrameId} (hg : I.Placed m globals) :
    I.Same quits m (fun m' s => I.Placed m' s.globals) (newSite source globals)
      (newSite source globals) := by
  refine same_act (fun _ => rfl) fun hm => ?_
  have hmoves : I.Moves m { m with exports := m.exports.push [] } :=
    moves_rest hm rfl rfl rfl fun h => h.pushExports
  exact ⟨hmoves, I.placed_later hmoves.later hg⟩

theorem openFile_same (path : Path) :
    I.Same quits m (fun m' s => I.Placed m' s.globals) (openFile path) (openFile path) := by
  have hframe : I.Same quits m (fun m' i => I.Placed m' i)
      (newFrame { name := "global " ++ path.name }) (newFrame { name := "global " ++ path.name }) :=
    same_act (fun _ => rfl) fun hm => I.pushFrame hm rfl fun _ _ hb => by cases hb
  exact hframe.bind fun _ _ _ hg => newSite_same path.text hg

theorem beginLoading_same (path : Path) :
    I.Same quits m (fun _ _ => True) (change (·.beginLoading path)) (change (·.beginLoading path)) := by
  refine same_change fun k hm hk => ?_
  obtain ⟨-, rfl⟩ := Machine.beginLoading_eq_ok hk
  exact moves_idle hm rfl rfl rfl rfl rfl

theorem abortLoading_moves (hm : I.Sound m) (path : Path) : I.Moves m (m.abortLoading path) :=
  moves_idle hm rfl rfl rfl rfl rfl

theorem finishLoading_moves {k : Machine} {path : Path} {e : Exports} (hm : I.Sound m)
    (he : ∀ n v, (n, v) ∈ e → I.Good v) (hk : m.finishLoading path e = .ok k) : I.Moves m k := by
  obtain ⟨-, rfl⟩ := Machine.finishLoading_eq_ok hk
  exact moves_rest hm rfl rfl rfl fun h => (h.setLoaded path he).of_eq rfl rfl

theorem write_same (t : Text) :
    I.Same quits m (fun _ _ => True) (Eval.write t) (Eval.write t) :=
  same_act (fun _ => rfl) fun hm => ⟨moves_idle hm rfl rfl rfl rfl rfl, trivial⟩

theorem readLine_same : I.Same quits m (fun _ => I.Good) readLine readLine := by
  refine same_act (fun _ => rfl) fun hm => ⟨moves_idle hm rfl rfl rfl rfl rfl, I.atom ?_⟩
  have hline : ∀ (b : Bool) (t : Text) (vs : List Value),
      (if b = true then Value.unit else .text t) ≠ .list vs := by
    intro b t vs
    cases b <;> simp
  exact hline _ _

end Invariant

end ModuleScript
