import ModuleScript.Proofs.Privacy.Effects

/-!
# Modules and files under a discipline

A module that is opened, its members declared and its name given back when it fails, in two machines
that are alike; and a file that is opened.
-/

set_option autoImplicit false

namespace ModuleScript.Discipline

open Eval

variable {D : Discipline} {m n m' : Machine} {c : Context} {x : Ident}

/-- A context for declarations: a good one, outside all modules if its frame is. -/
structure Placed (m : Machine) (c : Context) : Prop extends Good m c where
  outside : (m.frame c.scope.frame).record = none → c.module = none

/-- A module has been opened where its declarations may run. -/
structure Opens (D : Discipline) (m : Machine) (c : Context) (x : Ident) (body : List Stmt)
    (o : Opened) (body' : List Stmt) : Prop where
  good : Good m c
  allows : D.Allows c.module x
  size : o.id < m.records.size
  path : (m.record o.id).path = o.path
  slot : ∀ v, o.old.slot = some (.value v) → D.Valid m v
  exported : ∀ v, o.old.exported = some v → D.Valid m v
  inner : Placed m o.inner
  module : o.inner.module = some o.path
  body : D.DeclareAll o.inner.site.source o.inner.module body body'

theorem Placed.later (h : Placed m c) (hg : Grows m m') : Placed m' c := by
  refine ⟨h.toGood.later hg, fun hn => h.outside ?_⟩
  rwa [hg.attached _ h.frame] at hn

theorem Opens.later {body body' : List Stmt} {o : Opened} (h : D.Opens m c x body o body')
    (hg : Grows m m') : D.Opens m' c x body o body' where
  good := h.good.later hg
  allows := h.allows
  size := Nat.lt_of_lt_of_le h.size hg.records
  path := by rw [hg.path _ h.size, h.path]
  slot v hv := like_later hg (h.slot v hv)
  exported v hv := like_later hg (h.exported v hv)
  inner := h.inner.later hg
  module := h.module
  body := h.body

/-! ## Modules -/

theorem moves_pushRecord (hs : D.Sound m) (ha : D.Alike m n) (p : ModulePath)
    (parent : Option RecordId) (registry : List (ModulePath × RecordId)) :
    D.Moves m n
      { m with records := m.records.push { path := p, parent := parent }, registry := registry }
      { n with records := n.records.push { path := p, parent := parent }, registry := registry } := by
  let r : Record := { path := p, parent := parent }
  let f : Machine → Machine := fun m => { m with records := m.records.push r, registry := registry }
  have hrecord : ∀ (k : Machine) i, (f k).record i = if i = k.records.size then r else k.record i := by
    intro k i
    unfold Machine.record
    rw [Array.getElem?_push]
    split
    · rfl
    · rfl
  have hg : Grows m (f m) := by
    refine ⟨Nat.le_refl _, ?_, fun _ _ => rfl, fun i hi => ?_⟩
    · simp [f]
    · rw [hrecord, if_neg (Nat.ne_of_lt hi)]
  have hsound : D.Sound (f m) := {
    slots := fun hy => like_later hg (hs.slots hy)
    publicMembers := by
      intro i y v hy
      rw [hrecord] at hy
      split at hy
      · cases hy
      · exact like_later hg (hs.publicMembers hy)
    privateMembers := by
      intro i y v hy hx
      rw [hrecord] at hy hx
      split at hy
      · cases hy
      · rename_i hi
        rw [if_neg hi] at hx
        exact like_later hg (hs.privateMembers hy hx)
    exports := fun hy => like_later hg (hs.exports hy)
    loaded := fun he hy => like_later hg (hs.loaded he hy)
    attached := fun hk => Nat.lt_of_lt_of_le (hs.attached hk) hg.records
    unhidden := by
      intro i y s hy
      rw [hrecord] at hy ⊢
      split at hy
      · cases hy
      · rename_i hi
        rw [if_neg hi]
        exact hs.unhidden hy }
  have halike : D.Alike (f m) (f n) := {
    rest := by
      obtain ⟨rs, rfl⟩ := ha.rest
      exact ⟨rs.push r, rfl⟩
    size := by
      have hsize := ha.size
      simp [f, hsize]
    record := by
      intro i
      rw [hrecord, hrecord, ha.size]
      split
      · exact alikeRecord_refl r
      · exact ha.record i }
  exact ⟨hg, hsound, halike⟩

theorem register_of_ok (hc : Placed m c) {i : RecordId} {m' : Machine}
    (h : m.declareModule (.below c.site.source c.module x) (m.frame c.scope.frame).record =
      .ok (i, m')) :
    register c x m =
      .ok (i, .below c.site.source c.module x, (m.frame c.scope.frame).record.isNone) m' := by
  unfold register
  cases hr : (m.frame c.scope.frame).record with
  | none =>
    rw [hc.outside hr, hr] at h
    rw [hc.outside hr]
    change m.declareModule ⟨c.site.source, [x]⟩ none = _ at h
    dsimp only
    rw [h]
    rfl
  | some r =>
    obtain ⟨-, hmodule⟩ := hc.module r hr
    rw [hmodule, hr] at h
    rw [hmodule]
    change m.declareModule ((m.record r).path.child x) (some r) = _ at h
    dsimp only
    rw [h]
    rfl

theorem register_of_error (hc : Placed m c) {e : Failure}
    (h : m.declareModule (.below c.site.source c.module x) (m.frame c.scope.frame).record =
      .error e) : register c x m = .error e m := by
  unfold register
  cases hr : (m.frame c.scope.frame).record with
  | none =>
    rw [hc.outside hr, hr] at h
    change m.declareModule ⟨c.site.source, [x]⟩ none = _ at h
    dsimp only
    rw [h]
  | some r =>
    obtain ⟨-, hmodule⟩ := hc.module r hr
    rw [hmodule, hr] at h
    change m.declareModule ((m.record r).path.child x) (some r) = _ at h
    dsimp only
    rw [h]

theorem Placed.alike (hc : Placed m c) (ha : D.Alike m n) : Placed n c := by
  obtain ⟨⟨hframe, hmodule⟩, houtside⟩ := hc
  have hframes : n.frames.size = m.frames.size := ha.same (·.frames.size) fun _ => rfl
  refine ⟨⟨hframes ▸ hframe, fun i hi => ?_⟩, fun hi => ?_⟩
  · rw [ha.frame] at hi
    obtain ⟨hsize, hpath⟩ := hmodule i hi
    rw [ha.size, ← (ha.record i).path]
    exact ⟨hsize, hpath⟩
  · rw [ha.frame] at hi
    exact houtside hi

theorem register_moves (hs : D.Sound m) (ha : D.Alike m n) (hc : Placed m c) (x : Ident) :
    (∃ i o m' n', register c x m = .ok (i, .below c.site.source c.module x, o) m' ∧
        register c x n = .ok (i, .below c.site.source c.module x, o) n' ∧ D.Moves m n m' n' ∧
        i < m'.records.size ∧ (m'.record i).path = .below c.site.source c.module x) ∨
      ∃ e, register c x m = .error e m ∧ register c x n = .error e n := by
  have hc' := hc.alike ha
  have hmodule : n.module? (.below c.site.source c.module x) =
      m.module? (.below c.site.source c.module x) := ha.same (·.module? _) fun _ => rfl
  have hregistry : n.registry = m.registry := ha.same (·.registry) fun _ => rfl
  cases hfound : m.module? (.below c.site.source c.module x) with
  | some j =>
    refine .inr ⟨_, register_of_error hc (Machine.declareModule_of_some hfound _), ?_⟩
    exact register_of_error hc' (Machine.declareModule_of_some (hmodule.trans hfound) _)
  | none =>
    have hm := register_of_ok hc (Machine.declareModule_of_none hfound _)
    have hn := register_of_ok hc' (Machine.declareModule_of_none (hmodule.trans hfound) _)
    rw [ha.frame, ha.size, hregistry] at hn
    refine .inl ⟨_, _, _, _, hm, hn, moves_pushRecord hs ha _ _ _, ?_, ?_⟩
    · simp
    · simp [Machine.record]

theorem openModule_agrees {isPublic : Bool} {body body' : List Stmt} (hc : Placed m c)
    (hx : D.Allows c.module x)
    (hb : D.DeclareAll c.site.source (some (.below c.site.source c.module x)) body body') :
    D.worlds.Agree m (fun w o o' => o = o' ∧ D.Opens w c x body o body') (openModule c isPublic x)
      (openModule c isPublic x) := by
  refine agree_moves_or fun hs n ha => ?_
  unfold openModule
  rcases register_moves hs ha hc x with ⟨i, o, m₁, n₁, hm, hn, h₁, hi, hpath⟩ | ⟨e, he, he'⟩
  · rw [bind_of_ok hm, bind_of_ok hn]
    have hvalid : D.Valid m₁ (.module i (.below c.site.source c.module x)) :=
      .module ⟨rfl, rfl, hi, hpath⟩
    have hc₁ := hc.later h₁.grows
    obtain ⟨m₂, n₂, hm₂, hn₂, h₂⟩ :=
      define_moves h₁.sound h₁.alike hc₁.toGood hx hvalid (isPublic || o)
    let f : Frame :=
      { name := "mod " ++ (ModulePath.below c.site.source c.module x).text, record := some i }
    have hi₂ : i < m₂.records.size := Nat.lt_of_lt_of_le hi h₂.grows.records
    have h₃ : D.Moves m₂ n₂ (m₂.pushFrame f) (n₂.pushFrame f) := by
      refine moves_pushFrame h₂.sound h₂.alike (fun hy => by cases hy) ?_
      rintro _ ⟨⟩
      exact hi₂
    have hsize : n₂.frames.size = m₂.frames.size := by
      obtain ⟨rs, rfl⟩ := h₂.alike.rest
      rfl
    have hold : previous c x n₁ = previous c x m₁ := by
      unfold previous
      rw [h₁.alike.frame, h₁.alike.exportsOf]
    let inner : Context :=
      { c with scope := c.scope.push m₂.frames.size,
               module := some (.below c.site.source c.module x) }
    let opened : Opened := ⟨i, .below c.site.source c.module x, previous c x m₁, inner⟩
    have hpath₂ : (m₂.record i).path = .below c.site.source c.module x := by
      rw [h₂.grows.path i hi, hpath]
    have hgrows := h₂.grows.trans h₃.grows
    refine .inl ⟨opened, opened, _, _, ?_, ?_, (h₁.trans h₂).trans h₃, rfl, ?_⟩
    · have hget : (get : Eval Machine) m₁ = .ok m₁ m₁ := rfl
      dsimp only
      rw [bind_of_ok hget, bind_of_ok hm₂]
      rfl
    · have hget : (get : Eval Machine) n₁ = .ok n₁ n₁ := rfl
      dsimp only
      rw [bind_of_ok hget, bind_of_ok hn₂, hold]
      have henter : c.enter f n₂ = .ok { c with scope := c.scope.push m₂.frames.size }
          (n₂.pushFrame f) := by
        rw [← hsize]
        rfl
      exact bind_of_ok henter
    · have hframe := Machine.frame_pushFrame_size m₂ f
      refine ⟨hc₁.toGood.later hgrows, hx, hi₂, hpath₂, ?_, ?_, ⟨⟨?_, ?_⟩, ?_⟩, rfl, hb⟩
      · intro v hv
        exact like_later hgrows (h₁.sound.slots (Bindings.mem_of_get? hv))
      · intro v hv
        exact like_later hgrows (h₁.sound.exports (Bindings.mem_of_get? hv))
      · simp [opened, inner, Scope.push, Machine.pushFrame]
      · intro j hj
        dsimp only [opened, inner, Scope.push] at hj
        rw [hframe] at hj
        cases hj
        exact ⟨hi₂, congrArg some hpath₂.symm⟩
      · intro hn
        dsimp only [opened, inner, Scope.push] at hn
        rw [hframe] at hn
        cases hn
  · exact .inr ⟨e, bind_of_error he, bind_of_error he'⟩

/-- Members declared alike: a secret one never as public. -/
theorem declareMember_agrees {i : RecordId} {path : ModulePath} {vis : Visibility}
    (hi : (m.record i).path = path) (hx : vis = .isPublic → ¬ D.Secret path x) :
    D.worlds.Agree m (fun w _ _ => Grows m w)
      (change fun m => ((m.record i).declare x vis).map (m.setRecord i))
      (change fun m => ((m.record i).declare x vis).map (m.setRecord i)) := by
  refine agree_moves_or fun hs n ha => ?_
  unfold change Record.declare
  dsimp only
  rw [← (ha.record i).visibility?_eq x, ← (ha.record i).path]
  cases hv : (m.record i).visibility? x with
  | none =>
    have hslot : D.Secret (m.record i).path x ∨ Slot.pending = Slot.pending ∧
        ∀ u, Slot.pending = .value u → D.Valid m u := .inr ⟨rfl, fun _ hu => by cases hu⟩
    have hpublic : vis = .isPublic → ¬ D.Secret (m.record i).path x := by rwa [hi]
    have hmoves := moves_setMember hs ha i x hpublic hslot
    exact .inl ⟨_, _, _, _, rfl, rfl, hmoves, hmoves.grows⟩
  | some w =>
    dsimp only
    by_cases hw : vis = w
    · rw [if_pos hw, if_pos hw]
      have hmoves := moves_setRecord hs ha i rfl (ha.record i) hs.publicMembers hs.privateMembers
        hs.unhidden
      exact .inl ⟨_, _, _, _, rfl, rfl, hmoves, hmoves.grows⟩
    · rw [if_neg hw, if_neg hw]
      exact .inr ⟨_, rfl, rfl⟩

/-- The names that declarations of the two programs declare are the same, none of them a secret
declared as public. -/
theorem Declares.declared? {source : Text} {path : ModulePath} {s s' : Stmt}
    (h : D.Declares source (some path) s s') : declared? s = declared? s' ∧
      ∀ x, declared? s = some (x, .isPublic) → ¬ D.Secret path x := by
  cases h with
  | node hs hn =>
    refine ⟨rfl, fun x hx => ?_⟩
    cases s with
    | publicBinding l y initializer =>
      cases hx
      exact D.quiet hn (.head _)
    | module l isPublic y body => cases hs
    | expr e =>
      cases e with
      | binding l y initializer => cases hx
      | _ => cases hx
    | variation l y l' params body => cases hx
    | imports l names p => cases hx
  | secret hx => exact ⟨rfl, fun _ hy => by cases hy⟩
  | module hx hb =>
    refine ⟨rfl, fun y hy => ?_⟩
    have hn := congrArg Prod.fst (Option.some.inj hy)
    dsimp only at hn
    rw [← hn]
    exact D.quiet hx (.head _)

theorem declareMembers_agree {source : Text} {i : RecordId} {path : ModulePath}
    {body body' : List Stmt} (hsize : i < m.records.size) (hi : (m.record i).path = path)
    (hb : D.DeclareAll source (some path) body body') :
    D.worlds.Agree m (fun _ _ _ => True) (declareMembers i body) (declareMembers i body') := by
  induction body generalizing m body' with
  | nil =>
    cases hb
    exact Worlds.agree_pure trivial
  | cons s ss ih =>
    cases hb with
    | @cons _ _ s' _ ss' hs hss =>
      obtain ⟨he, hx⟩ := hs.declared?
      unfold declareMembers
      rw [List.filterMap_cons, List.filterMap_cons, ← he]
      cases hd : Eval.declared? s with
      | none => exact ih hsize hi hss
      | some p =>
        obtain ⟨y, vis⟩ := p
        rw [hd] at hx
        have hy : vis = .isPublic → ¬ D.Secret path y := by
          rintro rfl
          exact hx y rfl
        refine (declareMember_agrees hi hy).bind fun w _ _ _ hg => ?_
        exact ih (Nat.lt_of_lt_of_le hsize hg.records) (by rw [hg.path i hsize, hi]) hss

theorem restore_moves (hs : D.Sound m) (ha : D.Alike m n) (hg : Good m c) (hc : D.Allows c.module x)
    {old : Previous} (hslot : ∀ v, old.slot = some (.value v) → D.Valid m v)
    (hexported : ∀ v, old.exported = some v → D.Valid m v) :
    D.Moves m n (restore c x old m) (restore c x old n) := by
  unfold restore
  rw [ha.frame]
  cases hr : (m.frame c.scope.frame).record with
  | some i =>
    obtain ⟨-, hmodule⟩ := hg.module i hr
    have hx := hc _ hmodule
    exact moves_defineMember hs ha i x (fun _ => hx) (.inr ⟨rfl, fun _ hv => by cases hv⟩)
  | none =>
    have herase : ∀ {m' n'}, D.Moves m n m' n' →
        D.Moves m n (m'.eraseExport c.site.exports x) (n'.eraseExport c.site.exports x) :=
      fun h => h.trans (moves_eraseExport h.sound h.alike _ x)
    have hexport : ∀ {m' n' v}, old.exported = some v → D.Moves m n m' n' →
        D.Moves m n (m'.setExport c.site.exports x v) (n'.setExport c.site.exports x v) :=
      fun ho h => h.trans (moves_setExport h.sound h.alike _ x (like_later h.grows (hexported _ ho)))
    dsimp only
    cases ho : old.slot with
    | none =>
      have hset := moves_eraseSlot hs ha c.scope.frame x
      split
      · cases he : old.exported with
        | none => exact herase hset
        | some v => exact hexport he hset
      · exact hset
    | some s =>
      have hvalid : ∀ v, s = .value v → D.Valid m v :=
        fun v hv => hslot v (ho.trans (congrArg some hv))
      have hset := moves_setSlot hs ha c.scope.frame x hvalid
      split
      · cases he : old.exported with
        | none => exact herase hset
        | some v => exact hexport he hset
      · exact hset

/-! ## Files -/

theorem openFile_agrees (p : Path) (outer : List FrameId) :
    D.worlds.Agree m (fun w s s' => s = s' ∧ s.source = p.text ∧ Placed w (top s outer))
      (openFile p) (openFile p) := by
  refine agree_moves fun hs n ha => ?_
  let f : Frame := { name := "global " ++ p.name }
  have h₁ : D.Moves m n (m.pushFrame f) (n.pushFrame f) :=
    moves_pushFrame hs ha (fun hy => by cases hy) fun _ hr => by cases hr
  have h₂ := moves_pushExports h₁.sound h₁.alike
  have hframes : n.frames.size = m.frames.size := ha.same (·.frames.size) fun _ => rfl
  have hexports : n.exports.size = m.exports.size := ha.same (·.exports.size) fun _ => rfl
  refine ⟨⟨p.text, m.frames.size, m.exports.size⟩, ⟨p.text, m.frames.size, m.exports.size⟩, _, _, rfl,
    ?_, h₁.trans h₂, rfl, rfl, ⟨⟨?_, ?_⟩, fun _ => rfl⟩⟩
  · rw [← hframes, ← hexports]
    rfl
  · simp [top, Machine.pushFrame]
  · intro i hi
    have hframe := Machine.frame_pushFrame_size m f
    dsimp only [top] at hi
    unfold Machine.frame at hi hframe
    dsimp only at hi
    rw [hframe] at hi
    cases hi

end ModuleScript.Discipline
