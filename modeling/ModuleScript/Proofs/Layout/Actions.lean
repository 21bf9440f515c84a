import ModuleScript.Proofs.Layout.Machines

/-!
# Actions along a layout

Every action of evaluation, done in corresponding contexts of two machines that correspond along a
layout, leaves them so, with results that correspond or with the same failure. An action that binds a
name where it runs needs more of the contexts: that their own frames are counterparts.
-/

set_option autoImplicit false

namespace ModuleScript

open Eval

namespace Layout

/-- Two runs whose frames stand along a layout that grows. -/
abbrev worlds : Worlds where
  World := Layout
  Later := (· <+: ·)
  later_refl _ := List.prefix_rfl
  later_trans := List.IsPrefix.trans
  Machines := Machines

/-- What a name stands for in both runs. -/
structure Resolutions (w : Layout) (r r' : Resolution) : Prop where
  slot : w.like.Slots r.slot r'.slot
  frame : w.Places r.frame r'.frame
  owner : r.owner = r'.owner
  visibility : r.visibility = r'.visibility

/-- Contexts whose own frames are counterparts. -/
structure Aligned (w : Layout) (c c' : Context) : Prop extends Contexts w c c' where
  own : w.Places c.scope.frame c'.scope.frame

abbrev Values (w : Layout) : Value → Value → Prop := w.like.Matches

abbrev Done (_ : Layout) (_ _ : PUnit) : Prop := True

variable {w w' : Layout} {m n : Machine} {c c' : Context} {x : Ident} {v v' : Value}

theorem Resolutions.later {r r' : Resolution} (hl : w <+: w') (h : w.Resolutions r r') :
    w'.Resolutions r r' :=
  ⟨h.slot.mono (matches_later hl), h.frame.later hl, h.owner, h.visibility⟩

theorem Aligned.later (hl : w <+: w') (h : w.Aligned c c') : w'.Aligned c c' :=
  ⟨h.toContexts.later hl, h.own.later hl⟩

/-! ## Names -/

theorem lookupIn_rel (h : w.Machines m n) {i j : FrameId} (hp : w.Places i j) (x : Ident) :
    Option.Rel w.Resolutions (m.lookupIn x i) (n.lookupIn x j) := by
  have hframe := h.frame hp
  unfold Machine.lookupIn
  dsimp only
  rw [hframe.record]
  have hplain : Option.Rel w.Resolutions
      (((m.frame i).bindings.get? x).map fun s => ⟨s, i, none, .isPublic⟩)
      (((n.frame j).bindings.get? x).map fun s => ⟨s, j, none, .isPublic⟩) := by
    have hb := hframe.bindings.get? x
    generalize (m.frame i).bindings.get? x = s, (n.frame j).bindings.get? x = s' at hb
    cases hb with
    | none => exact .none
    | some hs => exact .some ⟨hs, hp, rfl, rfl⟩
  cases (n.frame j).record with
  | none => exact hplain
  | some r =>
    have hmember := (h.record r).members.member? x
    simp only [Option.bind_some]
    generalize (m.record r).member? x = p, (n.record r).member? x = q at hmember
    cases hmember with
    | none => exact hplain
    | some hpq => exact .some ⟨hpq.slot, hp, rfl, hpq.visibility⟩

theorem lookupIn_idle (h : w.Machines m n) {j : FrameId} {f : Frame}
    (hj : w[j]? = some (.aside f)) (hf : f.Idle) (x : Ident) : n.lookupIn x j = none := by
  unfold Machine.lookupIn
  dsimp only
  rw [h.aside hj, hf.record, hf.bindings]
  rfl

theorem lookup_rel (h : w.Machines m n) {s s' : Scope} (hs : w.Chain s.chain s'.chain)
    (x : Ident) : Option.Rel w.Resolutions (m.lookup s x) (n.lookup s' x) := by
  unfold Machine.lookup
  generalize s.chain = is, s'.chain = js at hs
  induction hs with
  | nil => exact .none
  | @shared i j is js hp _ ih =>
    rw [List.findSome?_cons, List.findSome?_cons]
    have hi := lookupIn_rel h hp x
    generalize m.lookupIn x i = r, n.lookupIn x j = r' at hi
    cases hi with
    | none => exact ih
    | some hr => exact .some hr
  | idle hj hf _ ih =>
    rw [List.findSome?_cons, lookupIn_idle h hj hf]
    exact ih

/-- A name is resolved to values that correspond. -/
abbrev Resolved (w : Layout) (r r' : Resolution × Value) : Prop :=
  w.Resolutions r.1 r'.1 ∧ w.Values r.2 r'.2

theorem resolve_agrees (hc : w.Contexts c c') (x : Ident) :
    worlds.Agree w Resolved (resolve c x) (resolve c' x) := by
  refine Worlds.agree_get fun m n h => ?_
  have hfound := lookup_rel h hc.chain x
  generalize m.lookup c.scope x = found, n.lookup c'.scope x = found' at hfound
  cases hfound with
  | none => exact Worlds.agree_because _ m n h
  | @some r r' hr =>
    have howner : (r.owner.map fun i => (m.record i).path) =
        r'.owner.map fun i => (n.record i).path := by
      rw [hr.owner]
      cases r'.owner with
      | none => rfl
      | some i => exact congrArg some (h.record i).members.path
    dsimp only
    rw [howner, hr.visibility, hc.module]
    have hread := Likeness.readSlot_agrees (S := worlds) (w := w) c'.module
      (r'.owner.map fun i => (n.record i).path) r'.visibility x hr.slot
    refine hread.bind (fun w' _ _ hl hv => ?_) m n h
    exact Worlds.agree_pure ⟨hr.later hl, matches_later hl hv⟩

theorem follow_agrees (hc : c.module = c'.module) (walked : Text) (names : List Ident)
    (hv : w.Values v v') :
    worlds.Agree w Values (follow c walked v names) (follow c' walked v' names) := by
  have hmodule : ∀ {w : Layout} {m n : Machine} {i j : RecordId} {p q : ModulePath},
      w.Machines m n → w.like.module i p j q →
        p = q ∧ ∀ x, Option.Rel w.like.Members ((m.record i).member? x) ((n.record j).member? x) := by
    rintro w m n i _ p _ h ⟨rfl, rfl⟩
    exact ⟨rfl, (h.record i).members.member?⟩
  exact Likeness.follow_agrees (S := worlds) (fun hl hv => matches_later hl hv) hmodule hc walked
    names hv

theorem dotted_agrees (hc : w.Contexts c c') (names : List Ident) :
    worlds.Agree w Values (dotted c names) (dotted c' names) := by
  cases names with
  | nil => exact Worlds.agree_pure (.plain rfl)
  | cons x rest =>
    exact (resolve_agrees hc x).bind fun _ _ _ _ hr => follow_agrees hc.module x rest hr.2

/-! ## Bindings and functions -/

theorem frames_of_like {f f' : Frame} (hf : w.like.Frames f f') : w.Frames f f' :=
  ⟨hf.name, by rw [hf.record, hf.record'], hf.bindings.slots⟩

/-- A new frame inside both scopes is the own frame of both contexts. -/
theorem enter_agrees (hs : w.Sites c.site c'.site) (hc : w.Chain c.scope.chain c'.scope.chain)
    (hmodule : c.module = c'.module) {f f' : Frame} (hf : w.Frames f f') :
    worlds.Agree w Aligned (c.enter f) (c'.enter f') := by
  intro m n h
  have hl : w <+: w ++ [.shared m.frames.size] := List.prefix_append w _
  have hp : Places (w ++ [.shared m.frames.size]) m.frames.size n.frames.size :=
    places_push.mpr (.inr ⟨h.size.symm, rfl⟩)
  refine Worlds.Ends.ok hl (h.pushFrame hf) ?_
  exact ⟨⟨hs.later hl, .shared hp (hc.later hl), hmodule⟩, hp⟩

theorem own_iff (h : w.Machines m n) (hc : w.Aligned c c') :
    c.scope.frame = c.site.globals ↔ c'.scope.frame = c'.site.globals :=
  h.places_iff hc.own hc.site.globals

theorem define_agrees (hc : w.Aligned c c') (x : Ident) (hv : w.Values v v') (isPublic : Bool) :
    worlds.Agree w Done (define c x v isPublic) (define c' x v' isPublic) := by
  refine Worlds.agree_modify fun m n h => ?_
  rw [(h.frame hc.own).record]
  cases (n.frame c'.scope.frame).record with
  | some i => exact h.defineMember i x (.value hv) _
  | none =>
    have hset := h.setSlot hc.own x (.value hv)
    simp only [own_iff h hc, hc.site.exports]
    split
    · exact hset.setExport _ x hv
    · exact hset

theorem newClosure_agrees (name : Option Ident) {vs vs' : List Variant}
    (hvs : List.Forall₂ w.Variants vs vs') :
    worlds.Agree w Values (newClosure name vs) (newClosure name vs') := by
  intro m n h
  refine Worlds.ends_ok h.newFunction (.closure ?_)
  have hclosures : w.Closures ⟨m.functions, name, vs⟩ ⟨n.functions, name, vs'⟩ :=
    ⟨h.functions, rfl, hvs⟩
  exact hclosures

theorem replace_agrees (hc : w.Contexts c c') {r r' : Resolution} (hr : w.Resolutions r r')
    (x : Ident) (hv : w.Values v v') :
    worlds.Agree w Done (replace c r x v) (replace c' r' x v') := by
  refine Worlds.agree_modify fun m n h => ?_
  rw [hr.owner]
  cases r'.owner with
  | some i => exact h.defineMember i x (.value hv) .isPrivate
  | none =>
    have hset := h.setSlot hr.frame x (.value hv)
    have hown := h.places_iff hr.frame hc.site.globals
    have hhas : ((m.setSlot r.frame x (.value v)).exportsOf c.site.exports).has x =
        ((n.setSlot r'.frame x (.value v')).exportsOf c'.site.exports).has x := by
      rw [hc.site.exports]
      exact (hset.exported c'.site.exports).has_eq x
    simp only [hown, hhas]
    rw [hc.site.exports]
    split
    · exact hset.setExport _ x hv
    · exact hset

theorem vary_agrees (hc : w.Contexts c c') (x : Ident) {u u' : Variant} (hu : w.Variants u u') :
    worlds.Agree w Values (vary c x u) (vary c' x u') := by
  refine (resolve_agrees hc x).bind ?_
  rintro w' ⟨r, v⟩ ⟨r', v'⟩ hl ⟨hr, hv⟩
  dsimp only at hr hv ⊢
  cases hv with
  | @plain v hplain =>
    cases v with
    | list | closure | module => cases hplain
    | _ => exact Worlds.agree_because _
  | list _ => exact Worlds.agree_because _
  | module _ => exact Worlds.agree_because _
  | @closure f f' hf =>
    have hf : w'.Closures f f' := hf
    have harity : u.arity = u'.arity := by unfold Variant.arity; rw [hu.params]
    have hsome : (f.variant? u'.arity).isSome = (f'.variant? u'.arity).isSome := by
      have hvariant := hf.variant? u'.arity
      generalize f.variant? u'.arity = a, f'.variant? u'.arity = b at hvariant
      cases hvariant <;> rfl
    dsimp only
    rw [harity, hsome, hf.name]
    split
    · exact Worlds.agree_because _
    · have hvariants : List.Forall₂ w'.Variants (f.variants ++ [u]) (f'.variants ++ [u']) :=
        List.rel_append hf.variants (.cons (hu.later hl) .nil)
      refine (newClosure_agrees f'.name hvariants).bind fun w₂ _ _ hl' hnew => ?_
      have hreplace := replace_agrees (hc.later (hl.trans hl')) (hr.later hl') x hnew
      exact hreplace.bind fun _ _ _ hl₂ _ => Worlds.agree_pure (matches_later hl₂ hnew)

/-! ## Modules -/

theorem pathFor_eq (h : w.Machines m n) (hc : w.Aligned c c') (x : Ident) :
    m.pathFor c x = n.pathFor c' x := by
  unfold Machine.pathFor
  rw [(h.frame hc.own).record, hc.site.source]
  cases (n.frame c'.scope.frame).record with
  | none => rfl
  | some i => exact congrArg (ModulePath.child · x) (h.record i).members.path

/-- A module is registered alike in both runs, or refused in both. -/
theorem register_agrees (hc : w.Aligned c c') (x : Ident) :
    worlds.Agree w (fun _ r r' => r = r') (Eval.register c x) (Eval.register c' x) := by
  intro m n h
  have hpath := pathFor_eq h hc x
  have hrecord := (h.frame hc.own).record
  have hmodule : m.module? (n.pathFor c' x) = n.module? (n.pathFor c' x) := by
    unfold Machine.module?
    rw [h.registry]
  cases hfound : n.module? (n.pathFor c' x) with
  | some i =>
    have hm := Machine.declareModule_of_some (hmodule.trans hfound) (m.frame c.scope.frame).record
    have hn := Machine.declareModule_of_some hfound (n.frame c'.scope.frame).record
    rw [← hpath] at hm
    rw [Machine.register_of_refused hm, Machine.register_of_refused hn, hpath]
    exact Worlds.ends_error h _
  | none =>
    have hm := Machine.declareModule_of_none (hmodule.trans hfound) (m.frame c.scope.frame).record
    have hn := Machine.declareModule_of_none hfound (n.frame c'.scope.frame).record
    rw [← hpath] at hm
    rw [Machine.register_of_path hm, Machine.register_of_path hn, hpath, hrecord, h.records,
      h.registry]
    exact Worlds.ends_ok (h.pushRecord _ _ _) rfl

theorem declareMembers_agrees (i : RecordId) (body : List Stmt) :
    worlds.Agree w Done (declareMembers i body) (declareMembers i body) := by
  unfold declareMembers
  induction body.filterMap Eval.declared? generalizing w with
  | nil => exact Worlds.agree_pure trivial
  | cons p rest ih =>
    obtain ⟨x, vis⟩ := p
    refine (Worlds.agree_change fun m n h => ?_).bind fun _ _ _ _ _ => ih
    have hd := (h.record i).declare x vis
    generalize (m.record i).declare x vis = r, (n.record i).declare x vis = r' at hd
    cases hd with
    | ok hr => exact .ok (h.setRecord i hr)
    | error e => exact .error e

/-- What a name meant before, in both runs. -/
structure Before (w : Layout) (old old' : Previous) : Prop where
  slot : Option.Rel w.like.Slots old.slot old'.slot
  exported : Option.Rel w.Values old.exported old'.exported

theorem Before.later {old old' : Previous} (hl : w <+: w') (h : w.Before old old') :
    w'.Before old old' := by
  obtain ⟨slot, exported⟩ := old
  obtain ⟨slot', exported'⟩ := old'
  obtain ⟨hslot, hexported⟩ := h
  dsimp only at hslot hexported
  constructor
  · cases hslot with
    | none => exact .none
    | some hs => exact .some (hs.mono (matches_later hl))
  · cases hexported with
    | none => exact .none
    | some hv => exact .some (matches_later hl hv)

theorem previous_before (h : w.Machines m n) (hc : w.Aligned c c') (x : Ident) :
    w.Before (previous c x m) (previous c' x n) := by
  refine ⟨(h.frame hc.own).bindings.get? x, ?_⟩
  unfold previous
  rw [hc.site.exports]
  exact (h.exported c'.site.exports).get? x

/-- A module opened in both runs. -/
structure Opens (w : Layout) (o o' : Opened) : Prop where
  id : o.id = o'.id
  path : o.path = o'.path
  old : w.Before o.old o'.old
  inner : w.Aligned o.inner o'.inner

theorem Opens.later {o o' : Opened} (hl : w <+: w') (h : w.Opens o o') : w'.Opens o o' :=
  ⟨h.id, h.path, h.old.later hl, h.inner.later hl⟩

theorem openModule_agrees (hc : w.Aligned c c') (isPublic : Bool) (x : Ident) :
    worlds.Agree w Opens (openModule c isPublic x) (openModule c' isPublic x) := by
  refine (register_agrees hc x).bind ?_
  rintro w₁ ⟨i, p, isOutermost⟩ _ hl₁ rfl
  have hc₁ := hc.later hl₁
  refine Worlds.agree_get fun m n h => ?_
  have hold := previous_before h hc₁ x
  have hmodule : w₁.Values (.module i p) (.module i p) := .module ⟨rfl, rfl⟩
  refine (define_agrees hc₁ x hmodule (isPublic || isOutermost)).bind ?_ m n h
  rintro w₂ _ _ hl₂ -
  have hc₂ := hc₁.later hl₂
  have hframe : w₂.Frames { name := "mod " ++ p.text, record := some i }
      { name := "mod " ++ p.text, record := some i } := ⟨rfl, rfl, .nil⟩
  refine (enter_agrees hc₂.site hc₂.chain hc₂.module hframe).bind fun w₃ d d' hl₃ hd => ?_
  exact Worlds.agree_pure
    ⟨rfl, rfl, (hold.later hl₂).later hl₃, ⟨⟨hd.site, hd.chain, rfl⟩, hd.own⟩⟩

theorem restoreExport (h : w.Machines m n) (i : ExportsId) (x : Ident) {e e' : Option Value} :
    Option.Rel w.Values e e' → w.Machines
      (match e with
        | none => m.eraseExport i x
        | some v => m.setExport i x v)
      (match e' with
        | none => n.eraseExport i x
        | some v => n.setExport i x v) := by
  intro he
  cases he with
  | none => exact h.eraseExport i x
  | some hv => exact h.setExport i x hv

theorem restore_machines (h : w.Machines m n) (hc : w.Aligned c c') (x : Ident)
    {old old' : Previous} (hold : w.Before old old') :
    w.Machines (restore c x old m) (restore c' x old' n) := by
  obtain ⟨slot, exported⟩ := old
  obtain ⟨slot', exported'⟩ := old'
  obtain ⟨hslot, hexported⟩ := hold
  dsimp only at hslot hexported
  unfold restore
  rw [(h.frame hc.own).record, hc.site.exports]
  cases (n.frame c'.scope.frame).record with
  | some i => exact h.defineMember i x .pending .isPrivate
  | none =>
    simp only [own_iff h hc]
    cases hslot with
    | none =>
      have hset := h.eraseSlot hc.own x
      split
      · exact restoreExport hset c'.site.exports x hexported
      · exact hset
    | some hs =>
      have hset := h.setSlot hc.own x hs
      split
      · exact restoreExport hset c'.site.exports x hexported
      · exact hset

/-! ## Files -/

theorem newSite_agrees (source : Text) {i j : FrameId} (hp : w.Places i j) :
    worlds.Agree w Sites (newSite source i) (newSite source j) :=
  fun _ _ h => Worlds.ends_ok h.pushExports ⟨rfl, hp, h.exports⟩

theorem newFrame_agrees {f f' : Frame} (hf : w.Frames f f') :
    worlds.Agree w Places (newFrame f) (newFrame f') := by
  intro m n h
  have hl : w <+: w ++ [.shared m.frames.size] := List.prefix_append w _
  refine Worlds.Ends.ok hl (h.pushFrame hf) ?_
  exact places_push.mpr (.inr ⟨h.size.symm, rfl⟩)

theorem openFile_agrees (p : Path) : worlds.Agree w Sites (openFile p) (openFile p) := by
  have hframe : w.Frames { name := "global " ++ p.name } { name := "global " ++ p.name } :=
    ⟨rfl, rfl, .nil⟩
  exact (newFrame_agrees hframe).bind fun _ _ _ _ hp => newSite_agrees p.text hp

end Layout

end ModuleScript
